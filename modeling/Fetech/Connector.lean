import Fetech.Context
import Fetech.Security
import Fetech.Snapshots
import Fetech.Lib.Program

/-! Snapshot connectors and what they are charged (`fetech/adapters/cache.py`,
`CacheAdapter._execute_connector` from its budgets to the validated snapshot).

A connector that reports its usage does so in a ledger that it shares with the adapter. What it did is
a run: the usage it recorded, and what it returned or raised. However it ends, the attempt is charged
what the ledger says, after the ledger was brought up to what the result cannot have cost less than. -/
namespace Fetech.Connector
open Lib Lib.Except Url Snapshots

/-- What a connector or the adapter raises. `cancelled` is no `Exception`. -/
inductive ConnectorError where
  | budget (message : String)
  | dependency (message : String)
  | notFound (message : String)
  | execution (message : String)
  | policy (message : String)
  | timeout (message : String)
  | value (message : String)
  | index (message : String)
  | other
  | cancelled
  deriving DecidableEq

/-- `SnapshotConnectorUsage`. -/
structure SnapshotConnectorUsage where
  wireBytes : Int := 0
  decompressedBytes : Int := 0
  redirects : Int := 0
  deriving DecidableEq

namespace SnapshotConnectorUsage

/-- No value of it is negative. -/
def isValid (usage : SnapshotConnectorUsage) : Bool := 0 ≤ usage.wireBytes && 0 ≤ usage.decompressedBytes && 0 ≤ usage.redirects

/-- `record` -/
def record (usage amount : SnapshotConnectorUsage) : Except ConnectorError SnapshotConnectorUsage := do
  require amount.isValid (.value "snapshot connector usage must be non-negative integers")
  return {
    wireBytes := usage.wireBytes + amount.wireBytes
    decompressedBytes := usage.decompressedBytes + amount.decompressedBytes
    redirects := usage.redirects + amount.redirects }

/-- A fresh ledger after records; one that raises leaves it as it is. -/
def after (records : List SnapshotConnectorUsage) : SnapshotConnectorUsage :=
  records.foldl (fun usage amount => (usage.record amount).toOption.getD usage) {}

end SnapshotConnectorUsage

/-- `ArchivedSnapshot`. -/
structure ArchivedSnapshot where
  originalUrl : String
  snapshotUrl : String
  body : List UInt8
  mediaType : String
  capturedAt : Moment
  etag : Option String := none
  lastModified : Option String := none
  auxiliaryBytes : Nat := 0

/-- What it was made of at least. -/
def ArchivedSnapshot.accounted (snapshot : ArchivedSnapshot) : Int := snapshot.body.length + snapshot.auxiliaryBytes

/-- What a connector returns; another object, or one whose body is not `bytes`, is foreign. -/
inductive ConnectorResult where
  | snapshot (snapshot : ArchivedSnapshot)
  | foreign

/-- What a connector does: the usage it records, and how it ends. -/
structure ConnectorRun where
  records : List SnapshotConnectorUsage
  outcome : Except ConnectorError ConnectorResult

structure ConnectorState where
  context : ExecutionContext
  usage : SnapshotConnectorUsage := {}

/-! ### Consumption -/

/-- `updated[name] = updated.get(name, 0) + amount` -/
def addConsumption (consumption : Consumption) (field : IntField) (amount : Int) : Consumption :=
  {consumption with int := fun f => if f = field then consumption.int f + amount else consumption.int f}

/-- `record_attempt_consumption` -/
def recordAttemptConsumption (context : ExecutionContext) (attemptIndex : Nat) (consumption : List (IntField × Int)) :
    Except ConnectorError ExecutionContext := do
  let attempt ← ofOption (.index "attempt index is outside the execution context") context.attempts[attemptIndex]?
  let updated ← consumption.foldlM (fun updated amount => do
    require (0 ≤ amount.2) (.value "budget consumption cannot be negative")
    return addConsumption updated amount.1 amount.2) attempt.consumedBudget
  return {context with attempts := context.attempts.set attemptIndex {attempt with consumedBudget := updated}}

/-- The values that are not zero, with the fields they count for. -/
def SnapshotConnectorUsage.consumption (usage : SnapshotConnectorUsage) : List (IntField × Int) :=
  [(.bytes, usage.wireBytes), (.decompressedBytes, usage.decompressedBytes), (.redirects, usage.redirects)].filter (·.2 ≠ 0)

/-- `_charge_connector_usage` -/
def chargeConnectorUsage (attemptIndex : Nat) (remainingWireBytes remainingDecompressedBytes remainingRedirects : Int) :
    Program ConnectorState ConnectorError Unit := do
  let s ← Program.get
  Program.check s.usage.isValid (.execution "configured snapshot connector returned invalid usage")
  Program.when (s.usage.consumption ≠ []) do
    let context ← .ofExcept (recordAttemptConsumption s.context attemptIndex s.usage.consumption)
    Program.modify fun s => {s with context}
  Program.check (s.usage.wireBytes ≤ remainingWireBytes) (.budget "bytes budget exhausted")
  Program.check (s.usage.decompressedBytes ≤ remainingDecompressedBytes) (.budget "decompressed_bytes budget exhausted")
  Program.check (s.usage.redirects ≤ remainingRedirects) (.budget "redirects budget exhausted")

/-- The wire bytes of a result cannot all be missing. -/
def SnapshotConnectorUsage.underreportsWire (usage : SnapshotConnectorUsage) (snapshot : ArchivedSnapshot) : Bool :=
  0 < snapshot.accounted && usage.wireBytes = 0

def SnapshotConnectorUsage.underreportsDecompressed (usage : SnapshotConnectorUsage) (snapshot : ArchivedSnapshot) : Bool :=
  usage.decompressedBytes < snapshot.accounted

/-- The ledger brought up to what a result cannot have cost less than. -/
def SnapshotConnectorUsage.reconciled (usage : SnapshotConnectorUsage) (snapshot : ArchivedSnapshot) : SnapshotConnectorUsage :=
  {usage with
    wireBytes := if usage.underreportsWire snapshot then snapshot.accounted else usage.wireBytes
    decompressedBytes := max usage.decompressedBytes snapshot.accounted}

/-- `_reconcile_connector_result_usage` -/
def reconcileConnectorResultUsage (result : ConnectorResult) (maximumBodyBytes : Int) : Program ConnectorState ConnectorError Unit :=
  match result with
  | .foreign => pure ()
  | .snapshot snapshot => do
    let s ← Program.get
    if s.usage.isValid then do
      Program.modify fun s => {s with usage := s.usage.reconciled snapshot}
      Program.check (snapshot.body.length ≤ maximumBodyBytes)
        (.budget "snapshot connector body exceeds the remaining byte budget")
      Program.check (!(s.usage.underreportsWire snapshot || s.usage.underreportsDecompressed snapshot))
        (.execution "configured snapshot connector under-reported body usage")
    else pure ()

/-! ### The adapter -/

/-- `_remaining_connector_deadline`, so many seconds after the first attempt started. -/
def remainingConnectorDeadline (context : ExecutionContext) (elapsed : ℚ) : Except ConnectorError ℚ :=
  if context.attempts.isEmpty then .ok context.request.budget.deadlineSeconds
  else do
    let remaining := context.request.budget.deadlineSeconds - max 0 elapsed
    require (0 < remaining) (.budget "deadline budget exhausted")
    return remaining

/-- The connector is called and its result held against the ledger. -/
def fetchSnapshotWithUsage (run : ConnectorRun) (elapsed : ℚ) (maximumBodyBytes : Int) :
    Program ConnectorState ConnectorError ConnectorResult := do
  let s ← Program.get
  let _ ← .ofExcept (remainingConnectorDeadline s.context elapsed)
  Program.modify fun s => {s with usage := .after run.records}
  let result ← .ofExcept run.outcome
  reconcileConnectorResultUsage result maximumBodyBytes
  return result

/-- What becomes of an error of the connector or the accounting. -/
def ConnectorError.translated : ConnectorError → ConnectorError
  | .execution _ | .value _ | .index _ | .other => .execution "configured snapshot connector failed"
  | err => err

/-- `_execute_connector` with a connector that reports its usage, through its accounting. -/
def accountConnector (run : ConnectorRun) (attemptIndex : Nat) (elapsed : ℚ) : Program ConnectorState ConnectorError ConnectorResult := do
  let s ← Program.get
  let remainingWireBytes := s.context.remainingBudget .bytes
  let remainingDecompressedBytes := s.context.remainingBudget .decompressedBytes
  Program.check (1 ≤ remainingWireBytes) (.budget "bytes budget exhausted")
  Program.check (1 ≤ remainingDecompressedBytes) (.budget "decompressed_bytes budget exhausted")
  let maximumBodyBytes := min remainingWireBytes remainingDecompressedBytes
  let remainingRedirects := s.context.remainingBudget .redirects
  Program.rescue
    (Program.ensure (fetchSnapshotWithUsage run elapsed maximumBodyBytes)
      (chargeConnectorUsage attemptIndex remainingWireBytes remainingDecompressedBytes remainingRedirects))
    fun err => Program.raise err.translated

/-- The same with a connector that does not: its result is charged what it was made of. -/
def accountUnreported (outcome : Except ConnectorError ConnectorResult) (attemptIndex : Nat) :
    Program ConnectorState ConnectorError ConnectorResult := do
  let s ← Program.get
  let remainingWireBytes := s.context.remainingBudget .bytes
  let remainingDecompressedBytes := s.context.remainingBudget .decompressedBytes
  Program.check (1 ≤ remainingWireBytes) (.budget "bytes budget exhausted")
  Program.check (1 ≤ remainingDecompressedBytes) (.budget "decompressed_bytes budget exhausted")
  let result ← Program.rescue (.ofExcept outcome) fun err => Program.raise err.translated
  match result with
  | .foreign => return result
  | .snapshot snapshot => do
    let context ← .ofExcept (recordAttemptConsumption s.context attemptIndex
      [(.bytes, snapshot.accounted), (.decompressedBytes, snapshot.accounted)])
    Program.modify fun s => {s with context}
    Program.check (snapshot.accounted ≤ remainingWireBytes) (.budget "bytes budget exhausted")
    Program.check (snapshot.accounted ≤ remainingDecompressedBytes) (.budget "decompressed_bytes budget exhausted")
    return result

/-- `ArchivedSnapshot.__post_init__`; `none` is a `ValueError`. -/
def validateSnapshot (c : Codecs) (snapshot : ArchivedSnapshot) : Option ArchivedSnapshot := do
  let originalUrl ← normalizeUrl c snapshot.originalUrl
  let snapshotUrl ← normalizeUrl c snapshot.snapshotUrl
  guard ("https://".isPrefixOf snapshotUrl)
  guard (snapshot.capturedAt ≠ .naive)
  guard (!snapshot.body.isEmpty)
  guard (!(Url.strip snapshot.mediaType.toList).isEmpty && snapshot.mediaType.length ≤ 255)
  return {snapshot with originalUrl, snapshotUrl}

/-- `_validated_connector_snapshot`, which forgets the auxiliary bytes. -/
def validatedConnectorSnapshot (c : Codecs) : ConnectorResult → Except ConnectorError ArchivedSnapshot
  | .foreign => .error (.execution "configured snapshot connector returned an invalid result")
  | .snapshot snapshot => ofOption (.execution "configured snapshot connector returned an invalid result")
    (validateSnapshot c {snapshot with auxiliaryBytes := 0})

/-- A configured connector: what it does, if it reports its usage and if it does not. -/
inductive SnapshotConnector where
  | reporting (run : ConnectorRun)
  | unreported (outcome : Except ConnectorError ConnectorResult)

/-- The accounting of a connector's call. -/
def account (connector : SnapshotConnector) (attemptIndex : Nat) (elapsed : ℚ) : Program ConnectorState ConnectorError ConnectorResult :=
  match connector with
  | .reporting run => accountConnector run attemptIndex elapsed
  | .unreported outcome => accountUnreported outcome attemptIndex

/-- `_execute_connector`, up to the snapshot that is stored. -/
def executeConnector (c : Codecs) (target : String) (connector : SnapshotConnector) (attemptIndex : Nat) (elapsed : ℚ) :
    Program ConnectorState ConnectorError ArchivedSnapshot := do
  let result ← account connector attemptIndex elapsed
  let snapshot ← .ofExcept (validatedConnectorSnapshot c result)
  let originalUrl ← .ofOption (.value "URL cannot be parsed") (normalizeUrl c snapshot.originalUrl)
  Program.check (originalUrl == target) (.execution "snapshot connector changed the original source authority")
  return snapshot

end Fetech.Connector
