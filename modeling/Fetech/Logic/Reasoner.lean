import Fetech.Logic.Coordinator

/-! Whether a capability is eligible (`explain` of `logic/coordinator.py`), by Python or by Prolog.

The Prolog backend has a process run `logic/rules/reasoner.pl` and checks its verdict against
Python's. So the verdict is Python's whatever the process prints, and the rules give Python's
reasons too. The verdict is stricter than the planner: an allow list binds the capabilities that the
planner schedules regardless of it. -/
namespace Fetech.Logic
open Planning Lib Lib.Except

structure ReasoningQuery where
  capabilityId : String
  allowed : Bool := true
  available : Bool := true
  riskClass : String := "low"
  dependencies : List String := []
  facts : List (String × (Bool ⊕ Int)) := []

structure ReasoningResult where
  backend : String
  status : BackendStatus
  capabilityId : Text
  conclusion : Text
  eligible : Bool
  reasons : List Text := []
  executableVersion : Option String := none
  rulesetSha256 : Option String := none
  inputSha256 : Option String := none
  resultSha256 : Option String := none
  diagnostics : List FallbackNote := []

/-- What is concluded, and why. -/
structure Verdict where
  capabilityId : Text
  conclusion : Text
  eligible : Bool
  reasons : List Text
  deriving DecidableEq

def ReasoningResult.verdict (result : ReasoningResult) : Verdict :=
  ⟨result.capabilityId, result.conclusion, result.eligible, result.reasons⟩

structure ReasonerBackend where
  name : String
  explain : ReasoningQuery → Except Failure ReasoningResult

def registeredReason : Text := Text.ofString "capability is registered, allowed, and available"
def deniedReason : Text := Text.ofString "capability is denied by the request policy"
def unavailableReason : Text := Text.ofString "capability implementation is unavailable"

/-- `"eligible" if expected else "ineligible"` -/
def conclusionOf (eligible : Bool) : Text := Text.ofString (if eligible then "eligible" else "ineligible")

def joined (dependencies : List String) : Text :=
  (Text.ofString ", ").intercalate (dependencies.map Text.ofString)

/-- `PythonReasonerBackend` -/
def pythonReasoner : ReasonerBackend where
  name := "python"
  explain query :=
    let eligible := query.allowed && query.available
    .ok {
      backend := "python"
      status := .succeeded
      capabilityId := Text.ofString query.capabilityId
      conclusion := conclusionOf eligible
      eligible
      reasons := (if query.allowed then [] else [deniedReason])
        ++ (if query.available then [] else [unavailableReason])
        ++ (if eligible then [registeredReason] else [])
        ++ (if query.dependencies.isEmpty then [] else [Text.ofString "dependencies: " ++ joined query.dependencies]) }

/-! ### `reasoner.pl` -/

/-- `denied_reasons`; `== false` of a JSON truth value. -/
def deniedReasons (query : ReasoningQuery) (initial : List Text) : List Text :=
  let withPolicy := if query.allowed = false then initial ++ [deniedReason] else initial
  if query.available = false then withPolicy ++ [unavailableReason] else withPolicy

/-- `base_reasons`; `join` is `atomics_to_string/3`, which may raise. -/
def baseReasons (join : List String → Option Text) (query : ReasoningQuery) (initial : List Text) : Option (List Text) :=
  if query.dependencies = [] then some initial
  else (join query.dependencies).map fun text => initial ++ [Text.ofString "dependencies: " ++ text]

/-- `reason` -/
def reason (join : List String → Option Text) (query : ReasoningQuery) : Option Verdict :=
  if query.allowed = true ∧ query.available = true then do
    let reasons ← baseReasons join query [registeredReason]
    return ⟨Text.ofString query.capabilityId, Text.ofString "eligible", true, reasons⟩
  else do
    let reasons ← baseReasons join query (deniedReasons query [])
    return ⟨Text.ofString query.capabilityId, Text.ofString "ineligible", false, reasons⟩

/-! ### The Prolog backend -/

def sensitiveKeys : List String := ["authorization", "body", "cookie", "credential", "password", "secret", "token"]

/-- What the backend finds outside: the executable, the rules, the process and `--version`, with
`model_dump_json` and how `pydantic` reads a truth value. -/
structure Prolog (φ : Type) where
  executable : String := "swipl"
  found : Bool
  rules : Except Failure (List UInt8)
  encode : ReasoningQuery → List UInt8
  run : List UInt8 → Except Failure ProcessResult
  version : Except Failure (Option String)
  truth : JsonValue φ → Option Bool

section
variable {φ : Type}

/-- `tuple(document.get("reasons", []))`, of strings. -/
def reasonsOf (document : List (Text × JsonValue φ)) : Option (List Text) :=
  match JsonValue.get? document "reasons" with
  | none => some []
  | some (.array items) => items.mapM fun
    | .string s => some s
    | _ => none
  | some (.string s) => some (s.map ([·]))
  | some (.object fields) => some (fields.map Prod.fst)
  | some _ => none

/-- The verdict that a document gives; `none` is an error that is reported as malformed output. -/
def verdictOf (truth : JsonValue φ → Option Bool) : JsonValue φ → Option Verdict
  | .object document => do
    let capabilityId ← JsonValue.get? document "capability_id"
    let conclusion ← JsonValue.get? document "conclusion"
    let eligible ← JsonValue.get? document "eligible"
    let reasons ← reasonsOf document
    match capabilityId, conclusion, truth eligible with
    | .string capabilityId, .string conclusion, some eligible => return ⟨capabilityId, conclusion, eligible, reasons⟩
    | _, _, _ => none
  | _ => none

/-- Whether a fact's key names a secret. -/
def isSensitive (lower : List Char → List Char) (key : String) : Bool :=
  sensitiveKeys.any fun fragment => decide (fragment.toList <:+: lower key.toList)

/-- `_reject_sensitive_facts` -/
def rejectSensitiveFacts (lower : List Char → List Char) (query : ReasoningQuery) : Except Failure Unit :=
  match query.facts.find? fun fact => isSensitive lower fact.1 with
  | some fact => .error (.sensitive fact.1)
  | none => .ok ()

/-- `PrologReasonerBackend`; `sha256` is the digest of bytes. -/
def prologReasoner (library : Parsers.ReaderLibrary φ) (lower : List Char → List Char) (sha256 : List UInt8 → String)
    (prolog : Prolog φ) : ReasonerBackend where
  name := "prolog"
  explain query := do
    rejectSensitiveFacts lower query
    require prolog.found (.unavailable prolog.executable)
    let rules ← prolog.rules
    let payload := prolog.encode query
    require (payload.length ≤ 65536) .overlong
    let result ← prolog.run payload
    require (result.returncode = 0) (.exited result.returncode result.stderr)
    let document ← loadOutput library result.stdout
    let verdict ← ofOption .malformed (verdictOf prolog.truth document)
    require (verdict.capabilityId = Text.ofString query.capabilityId) .changedCapability
    let expected := query.allowed && query.available
    require (verdict.eligible = expected ∧ verdict.conclusion = conclusionOf expected) .contradiction
    let version ← prolog.version
    return {
      backend := "prolog", status := .succeeded, capabilityId := verdict.capabilityId
      conclusion := verdict.conclusion, eligible := verdict.eligible, reasons := verdict.reasons
      executableVersion := version, rulesetSha256 := sha256 rules, inputSha256 := sha256 payload
      resultSha256 := sha256 result.stdout }

end

/-! ### The coordinator -/

namespace LogicCoordinator
variable (c : LogicCoordinator) (prolog : ReasonerBackend)

/-- `_reasoner_backend` -/
def reasoner : Except Failure ReasonerBackend :=
  if c.reasonerBackend = "python" then .ok pythonReasoner
  else if ["prolog", "swi-prolog", "swipl"].contains c.reasonerBackend then .ok prolog
  else .error (.unsupported c.reasonerBackend)

/-- `explain` -/
def explain (query : ReasoningQuery) : Except Failure ReasoningResult := do
  let backend ← c.reasoner prolog
  match backend.explain query with
  | .ok result => return result
  | .error cause =>
    if !cause.ofBackend || !c.logicFallback || backend.name == "python" then .error cause
    else do
      let result ← pythonReasoner.explain query
      return {result with status := .fallback, diagnostics := [{backend := backend.name, cause}]}

/-- `capability_query`; the manifest's other fields of an entry are given by `details`. -/
def capabilityQuery (details : CapabilityManifestEntry → String × List String) (capabilityId : String)
    (request : Option FetchRequest) : Except Failure ReasoningQuery := do
  let entry ← ofOption (.unknownCapability capabilityId) (c.planner.registry.get capabilityId)
  let denied := request.any fun request => request.denyCapabilities.contains entry.id
  let allowedByList := request.all fun request =>
    request.allowCapabilities.isEmpty || request.allowCapabilities.contains entry.id
  return {
    capabilityId := entry.id, allowed := !denied && allowedByList, available := entry.implementationAvailable
    riskClass := (details entry).1, dependencies := (details entry).2 }

end LogicCoordinator

/-! ### The same verdict -/

/-- Prolog's rules say what Python says, where they say anything: the order of the reasons is the same. -/
theorem reason_eq (join : List String → Option Text) (hjoin : ∀ dependencies text, join dependencies = some text →
    text = joined dependencies) (query : ReasoningQuery) {verdict : Verdict} (h : reason join query = some verdict)
    {result : ReasoningResult} (hresult : pythonReasoner.explain query = .ok result) : verdict = result.verdict := by
  cases hresult
  obtain ⟨id, allowed, available, risk, dependencies, facts⟩ := query
  have hbase : ∀ {initial reasons : List Text},
      baseReasons join ⟨id, allowed, available, risk, dependencies, facts⟩ initial = some reasons →
      reasons = initial ++ if dependencies.isEmpty then [] else [Text.ofString "dependencies: " ++ joined dependencies] := by
    intro initial reasons hreasons
    unfold baseReasons at hreasons
    split at hreasons
    · rename_i hnil
      cases hreasons
      rw [show dependencies = [] from hnil]
      simp
    · rename_i hne
      obtain ⟨text, htext, rfl⟩ := Option.map_eq_some_iff.mp hreasons
      have hempty : dependencies.isEmpty = false := List.isEmpty_eq_false_iff.mpr hne
      rw [hjoin _ _ htext, hempty]
      rfl
  unfold reason at h
  split at h
  · rename_i hboth
    obtain ⟨reasons, hreasons, hverdict⟩ := Option.bind_eq_some_iff.mp h
    cases hverdict
    obtain rfl : allowed = true := hboth.1
    obtain rfl : available = true := hboth.2
    rw [hbase hreasons]
    simp [ReasoningResult.verdict, conclusionOf]
  · rename_i hnot
    obtain ⟨reasons, hreasons, hverdict⟩ := Option.bind_eq_some_iff.mp h
    cases hverdict
    rw [hbase hreasons]
    cases allowed with
    | false =>
      cases available with
      | false => simp [ReasoningResult.verdict, conclusionOf, deniedReasons]
      | true => simp [ReasoningResult.verdict, conclusionOf, deniedReasons]
    | true =>
      cases available with
      | false => simp [ReasoningResult.verdict, conclusionOf, deniedReasons]
      | true => exact absurd ⟨rfl, rfl⟩ hnot

section
variable {φ : Type} {library : Parsers.ReaderLibrary φ} {lower : List Char → List Char} {sha256 : List UInt8 → String}
  {prolog : Prolog φ} {query : ReasoningQuery} {result : ReasoningResult}

/-- What the Prolog backend returns was printed by the process, and is Python's up to the reasons. -/
theorem prolog_eq_ok (h : (prologReasoner library lower sha256 prolog).explain query = .ok result) :
    ∃ printed document, prolog.run (prolog.encode query) = .ok printed ∧ loadOutput library printed.stdout = .ok document ∧
      verdictOf prolog.truth document = some result.verdict ∧ result.capabilityId = Text.ofString query.capabilityId ∧
      result.eligible = (query.allowed && query.available) ∧
      result.conclusion = conclusionOf (query.allowed && query.available) := by
  simp only [prologReasoner, bind_eq_ok, require_eq_ok, ofOption_eq_ok, decide_eq_true_eq] at h
  obtain ⟨-, -, -, -, rules, -, -, -, printed, hrun, -, -, document, hload, verdict, hverdict, -, hid, -, hsame, version, -,
    h⟩ := h
  cases h
  exact ⟨printed, document, hrun, hload, hverdict, hid, hsame.1, hsame.2⟩

/-- What is explained is Python's explanation, or the process printed its verdict. -/
theorem explain_cases {c : LogicCoordinator} {backend : ReasonerBackend} (h : c.explain backend query = .ok result) :
    (∃ explained, pythonReasoner.explain query = .ok explained ∧ result.verdict = explained.verdict) ∨
      backend.explain query = .ok result := by
  simp only [LogicCoordinator.explain, bind_eq_ok] at h
  obtain ⟨chosen, hchosen, h⟩ := h
  cases hexplained : chosen.explain query with
  | ok explained =>
    rw [hexplained] at h
    cases h
    unfold LogicCoordinator.reasoner at hchosen
    split at hchosen
    · cases hchosen
      exact .inl ⟨result, hexplained, rfl⟩
    split at hchosen
    · cases hchosen
      exact .inr hexplained
    · cases hchosen
  | error cause =>
    rw [hexplained] at h
    dsimp only at h
    split at h
    · cases h
    · obtain ⟨explained, hpython, h⟩ := bind_eq_ok.mp h
      cases h
      exact .inl ⟨explained, hpython, rfl⟩

end

/-! ### The verdict and the planner -/

section
variable {c : LogicCoordinator} {details : CapabilityManifestEntry → String × List String} {capabilityId : String}
  {request : FetchRequest} {query : ReasoningQuery}

/-- What a query asks of a request's lists. -/
theorem capabilityQuery_some (h : c.capabilityQuery details capabilityId (some request) = .ok query) :
    ∃ entry, c.planner.registry.get capabilityId = some entry ∧ query.available = entry.implementationAvailable ∧
      (query.allowed = true ↔ entry.id ∉ request.denyCapabilities ∧
        (request.allowCapabilities = [] ∨ entry.id ∈ request.allowCapabilities)) := by
  simp only [LogicCoordinator.capabilityQuery, bind_eq_ok, ofOption_eq_ok] at h
  obtain ⟨entry, hentry, h⟩ := h
  cases h
  exact ⟨entry, hentry, rfl, by simp⟩

theorem permitted_get {entry : CapabilityManifestEntry} (h : c.planner.registry.get capabilityId = some entry) :
    c.planner.permitted capabilityId request = .ok (Planner.allows request entry.id) := by
  obtain ⟨canonical, hcanonical, -⟩ := Option.bind_eq_some_iff.mp h
  rw [Planner.permitted, hcanonical, get_id h hcanonical]

/-- **What is explained**: with Prolog as with Python, the capability asked about, eligible exactly if it
is allowed and available; and Python's whole verdict, if the process prints what the rules conclude. An
eligible capability is one that the planner permits; of those, only the core and HTTP capabilities
that an allow list leaves out are called ineligible while they are implemented. -/
theorem explain_agrees {φ : Type} (library : Parsers.ReaderLibrary φ) (lower : List Char → List Char)
    (sha256 : List UInt8 → String) (prolog : Prolog φ) (c : LogicCoordinator)
    (details : CapabilityManifestEntry → String × List String) (capabilityId : String) (request : FetchRequest)
    (query : ReasoningQuery) (result : ReasoningResult)
    (hquery : c.capabilityQuery details capabilityId (some request) = .ok query)
    (hresult : c.explain (prologReasoner library lower sha256 prolog) query = .ok result) :
    result.capabilityId = Text.ofString query.capabilityId ∧ result.eligible = (query.allowed && query.available) ∧
    result.conclusion = conclusionOf result.eligible ∧
    (∀ join : List String → Option Text, (∀ dependencies text, join dependencies = some text → text = joined dependencies) →
      (∀ printed document verdict, prolog.run (prolog.encode query) = .ok printed →
        loadOutput library printed.stdout = .ok document → verdictOf prolog.truth document = some verdict →
        reason join query = some verdict) →
      ∀ explained, pythonReasoner.explain query = .ok explained → result.verdict = explained.verdict) ∧
    ∃ entry, c.planner.registry.get capabilityId = some entry ∧
      (result.eligible = true ↔ c.planner.permitted capabilityId request = .ok true ∧ entry.implementationAvailable = true ∧
        ¬ (request.allowCapabilities ≠ [] ∧ entry.id ∉ request.allowCapabilities ∧
          entry.id ∈ "url_normalisation" :: "url_validation" :: httpCapabilities)) := by
  have hverdict : result.capabilityId = Text.ofString query.capabilityId ∧
      result.eligible = (query.allowed && query.available) ∧ result.conclusion = conclusionOf result.eligible := by
    obtain ⟨explained, hpython, hsame⟩ | hprolog := explain_cases hresult
    · cases hpython
      exact ⟨congrArg Verdict.capabilityId hsame, congrArg Verdict.eligible hsame,
        (congrArg Verdict.conclusion hsame).trans (congrArg conclusionOf (congrArg Verdict.eligible hsame).symm)⟩
    · obtain ⟨-, -, -, -, -, hid, heligible, hconclusion⟩ := prolog_eq_ok hprolog
      exact ⟨hid, heligible, heligible ▸ hconclusion⟩
  obtain ⟨hid, heligible, hconclusion⟩ := hverdict
  refine ⟨hid, heligible, hconclusion, fun join hjoin hprinted explained hpython => ?_, ?_⟩
  · obtain ⟨explained', hpython', hsame⟩ | hprolog := explain_cases hresult
    · cases hpython.symm.trans hpython'
      exact hsame
    · obtain ⟨printed, document, hrun, hload, hread, -⟩ := prolog_eq_ok hprolog
      exact reason_eq join hjoin query (hprinted printed document _ hrun hload hread) hpython
  · obtain ⟨entry, hentry, havailable, hallowed⟩ := capabilityQuery_some hquery
    refine ⟨entry, hentry, ?_⟩
    rw [heligible, Bool.and_eq_true, hallowed, havailable, permitted_get hentry, Except.ok.injEq, allows_iff]
    tauto

/-- A request that allows nothing but posting: the planner still takes headers. -/
def postRequest : FetchRequest := {headRequest with allowCapabilities := ["http_post"]}

def headQuery : ReasoningQuery where
  capabilityId := "http_head"
  allowed := false
  dependencies := ["url_validation"]

def headReasons : List Text := [deniedReason, Text.ofString "dependencies: " ++ joined ["url_validation"]]

/-- What the rules print for this query. -/
def headVerdict : List (Text × JsonValue Unit) :=
  [(Text.ofString "capability_id", .string (Text.ofString "http_head")),
    (Text.ofString "conclusion", .string (conclusionOf false)), (Text.ofString "eligible", .bool false),
    (Text.ofString "reasons", .array (headReasons.map .string))]

def printedVerdict : List UInt8 := (Parsers.encodeDocument Parsers.plainLibrary.floats (.object headVerdict)).getD []

/-- `model_dump_json` of this query. -/
def headPayload : List UInt8 :=
  (Text.ofString ("\x7b\"capability_id\":\"http_head\",\"allowed\":false,\"available\":true,\"risk_class\":\"low\"," ++
    "\"dependencies\":[\"url_validation\"],\"facts\":\x7b\x7d\x7d")).map fun c => UInt8.ofNat c.val

/-- A machine that is asked this query. -/
def headProlog : Prolog Unit where
  found := true
  rules := .ok []
  encode _ := headPayload
  run _ := .ok {returncode := 0, stdout := printedVerdict}
  version := .ok (some "SWI-Prolog version 9.0.4")
  truth
    | .bool b => some b
    | _ => none

def headCoordinator : LogicCoordinator where
  planner := headPlanner
  reasonerBackend := "swipl"
  clingo := pythonPlanner

def headResult : ReasoningResult where
  backend := "prolog"
  status := .succeeded
  capabilityId := Text.ofString "http_head"
  conclusion := conclusionOf false
  eligible := false
  reasons := headReasons
  executableVersion := some "SWI-Prolog version 9.0.4"
  rulesetSha256 := some ""
  inputSha256 := some ""
  resultSha256 := some ""

theorem printedVerdict_read : loadOutput Parsers.plainLibrary printedVerdict = .ok (.object headVerdict) :=
  loadOutput_written (List.cons_ne_nil _ _) (by decide +kernel) (JsonValue.fitsIn_mono (by decide : 8 ≤ 1000) (by decide +kernel))
    (by decide +kernel) rfl

theorem explain_head : headCoordinator.explain (prologReasoner Parsers.plainLibrary id (fun _ => "") headProlog) headQuery =
    .ok headResult := by
  have hbackend : (prologReasoner Parsers.plainLibrary id (fun _ => "") headProlog).explain headQuery = .ok headResult := by
    simp only [prologReasoner, bind_eq_ok, require_eq_ok, ofOption_eq_ok, decide_eq_true_eq]
    exact ⟨(), by rfl, (), rfl, [], rfl, (), by decide +kernel, _, rfl, (), rfl, .object headVerdict,
      printedVerdict_read, headResult.verdict, by rfl, (), rfl, (), ⟨rfl, rfl⟩, some "SWI-Prolog version 9.0.4", rfl, rfl⟩
  have hreasoner : headCoordinator.reasoner (prologReasoner Parsers.plainLibrary id (fun _ => "") headProlog) =
      .ok (prologReasoner Parsers.plainLibrary id (fun _ => "") headProlog) := by rfl
  refine bind_eq_ok.mpr ⟨_, hreasoner, ?_⟩
  rw [hbackend]
  rfl

theorem explain_agrees_head : headResult.eligible = false ∧
    (∀ explained, pythonReasoner.explain headQuery = .ok explained → headResult.verdict = explained.verdict) ∧
    headPlanner.permitted "http_head" postRequest = .ok true ∧
    ∃ entry, headPlanner.registry.get "http_head" = some entry ∧ entry.id ∉ postRequest.allowCapabilities := by
  obtain ⟨-, -, -, hverdict, entry, hentry, heligible⟩ := explain_agrees Parsers.plainLibrary id (fun _ => "") headProlog
    headCoordinator (fun _ => ("low", ["url_validation"])) "http_head" postRequest headQuery headResult (by rfl) explain_head
  have hpermitted : headPlanner.permitted "http_head" postRequest = .ok true := by decide
  have hget : headPlanner.registry.get "http_head" = some {id := "http_head", kind := .operation} := by rfl
  have havailable : entry.implementationAvailable = true := by
    cases hget.symm.trans hentry
    rfl
  have hexempt := not_and.mp (not_and.mp (fun h => Bool.false_ne_true (heligible.mpr h)) hpermitted) havailable
  refine ⟨rfl, hverdict (fun dependencies => some (joined dependencies)) (fun _ _ h => (Option.some.inj h).symm) ?_,
    hpermitted, entry, hentry, (not_not.mp hexempt).2.1⟩
  intro printed document verdict hrun hload hread
  cases hrun
  cases hload.symm.trans printedVerdict_read
  cases hread
  rfl

end

end Fetech.Logic
