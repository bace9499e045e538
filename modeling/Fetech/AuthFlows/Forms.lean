import Mathlib.Algebra.Order.Ring.Rat
import Fetech.AuthFlows
import Fetech.Lib.Query

/-! Form proposals and the approvals they need (`fetech/auth_flows.py`).

A proposal names a target and a method that changes something there. A `FormSubmission` has
passed the constructor: its method is one of these, and its token, if it has one, is bound to
target and method. The provider keeps proposals by reference and hands out each of them once.
Instants are seconds. -/
namespace Fetech.AuthFlows
open Lib Lib.Except Lib.Url

/-- What a proposal raises: an `AuthFlowError` other than the `ApprovalRequiredError`, that error,
or one of the provider's. -/
inductive SubmissionError where
  | flow (err : AuthFlowError)
  | approvalRequired (message : String)
  | notFound (message : String)
  | provider (message : String)
  deriving DecidableEq

/-! ### Limits -/

def maximumFormFields : Nat := 128
def maximumFormBytes : Nat := 64 * 1024
def maximumReferenceBytes : Nat := 2048

/-- `MAX_APPROVAL_LIFETIME`. -/
def maximumApprovalLifetime : ℚ := 15 * 60

/-- `_bounded_label`. -/
def boundedLabel (value name : String) : Except AuthFlowError String := do
  let candidate := strip value.toList
  require (!candidate.isEmpty && candidate.length ≤ 256 && candidate.all fun ch => 32 ≤ ch.toNat && ch.toNat ≤ 126)
    (.flow (name ++ " must be printable and bounded"))
  return String.ofList candidate

/-- `_opaque_reference`. -/
def boundedReference (value name : String) : Except AuthFlowError String := do
  let candidate := strip value.toList
  require (!candidate.isEmpty && utf8Length (String.ofList candidate) ≤ maximumReferenceBytes &&
      candidate.all fun ch => 32 ≤ ch.toNat && ch.toNat ≠ 127)
    (.flow (name ++ " must be a bounded opaque reference"))
  return String.ofList candidate

/-- An instant, and whether it came with a timezone. -/
structure Datetime where
  instant : ℚ
  aware : Bool := true

/-- `_aware_datetime`. -/
def awareDatetime (value : Datetime) (name : String) : Except AuthFlowError ℚ := do
  require value.aware (.flow (name ++ " must include a timezone"))
  return value.instant

/-- `_MUTATING_METHODS`. -/
def mutatingMethods : List String := ["POST", "PUT", "PATCH", "DELETE"]

/-! ### Approvals -/

structure FormSubmissionApproval where
  approvalId : String
  target : String
  method : String
  grantedAt : ℚ
  expiresAt : ℚ
  actor : String
  later : grantedAt < expiresAt
  bounded : expiresAt - grantedAt ≤ maximumApprovalLifetime

section
variable (c : Codecs)

/-- `FormSubmissionApproval(…)`. -/
def FormSubmissionApproval.create (approvalId target method : String) (grantedAt expiresAt : Datetime) (actor : String := "user") :
    Except SubmissionError FormSubmissionApproval := do
  let approvalId ← (boundedLabel approvalId "approval_id").mapError .flow
  let target ← (httpsUrl c target).mapError .flow
  let method ← (formMethod c method).mapError .flow
  require (mutatingMethods.contains method) (.approvalRequired "approval grants are only valid for mutating form methods")
  let grantedAt ← (awareDatetime grantedAt "approval grant time").mapError .flow
  let expiresAt ← (awareDatetime expiresAt "approval expiry").mapError .flow
  if later : grantedAt < expiresAt then
    if bounded : expiresAt - grantedAt ≤ maximumApprovalLifetime then do
      let actor ← (boundedLabel actor "approval actor").mapError .flow
      return {approvalId, target, method, grantedAt, expiresAt, actor, later, bounded}
    else .error (.approvalRequired "approval lifetime exceeds the bounded maximum")
  else .error (.approvalRequired "approval expiry must be later than grant time")

/-- `permits`: any `ValueError` of the target or the method is a refusal. -/
def FormSubmissionApproval.permits (a : FormSubmissionApproval) (target method : String) (instant : ℚ) : Bool :=
  match httpsUrl c target, formMethod c method with
  | .ok target, .ok method => target = a.target && method = a.method && (a.grantedAt ≤ instant && instant < a.expiresAt)
  | _, _ => false

/-! ### Proposals -/

/-- `applies_to`. -/
def CSRFTokenMaterial.appliesTo (m : CSRFTokenMaterial) (target method : String) : Bool :=
  match httpsUrl c target, AuthFlows.formMethod c method with
  | .ok target, .ok method => target = m.formAction && method = m.formMethod
  | _, _ => false

structure FormSubmission where
  target : String
  method : String
  fields : Dict String String
  authenticationRef : Option String
  csrf : Option CSRFTokenMaterial
  approval : Option FormSubmissionApproval
  mutates : mutatingMethods.contains method = true
  bound : csrf.all (·.appliesTo c target method) = true

/-- One turn of the loop of `_validated_form_fields`, with the bytes so far. -/
def validatedField (result : Dict String String × Nat) (entry : String × String) : Except AuthFlowError (Dict String String × Nat) := do
  require (isFieldName entry.1.toList) (.flow "form contains an invalid field name")
  validateSecretValue entry.2 "form field value must be non-empty, bounded, and contain no NUL bytes" maximumFormBytes
  let total := result.2 + (utf8Length entry.1 + utf8Length entry.2)
  require (total ≤ maximumFormBytes) (.flow "form exceeds the bounded payload size")
  return (result.1.set entry.1 entry.2, total)

/-- `_validated_form_fields`. -/
def validatedFormFields (fields : Dict String String) : Except AuthFlowError (Dict String String) := do
  require (fields.size ≤ maximumFormFields) (.flow "form exceeds the bounded field count")
  let result ← fields.entries.foldlM validatedField (∅, 0)
  return result.1

/-- The method of a proposal: a form method other than `GET`. -/
def proposedMethod (method : String) : Except AuthFlowError {method : String // mutatingMethods.contains method = true} := do
  let method ← formMethod c method
  if h : mutatingMethods.contains method = true then return ⟨method, h⟩
  else .error (.flow "GET form proposals are unsupported; encode retrieval fields in the target URL")

/-- The token of a proposal, bound to its target and method. -/
def boundToken (target method : String) (fields : Dict String String) : Option CSRFTokenMaterial →
    Except AuthFlowError {csrf : Option CSRFTokenMaterial // csrf.all (·.appliesTo c target method) = true}
  | none => .ok ⟨none, rfl⟩
  | some m =>
    if h : m.appliesTo c target method = true then do
      require ((fields.get? m.fieldName).all (· = m.token)) (.extraction "form fields conflict with the bound CSRF token")
      return ⟨some m, h⟩
    else .error (.extraction "CSRF token is not bound to the exact form action and method")

namespace FormSubmission
variable {c} (s : FormSubmission c)

def isMutating : Bool := mutatingMethods.contains s.method

/-- `origin`; `none` is a `ValueError`. -/
def origin : Option String := canonicalOrigin c s.target

/-- `assert_authorized`. -/
def assertAuthorized (instant : ℚ) : Except SubmissionError Unit :=
  require (!(s.isMutating && !s.approval.any (·.permits c s.target s.method instant)))
    (.approvalRequired "mutating form submission requires explicit approval for the exact target and method")

/-- The fields with the token among them. -/
def fieldsWithToken : Dict String String :=
  match s.csrf with
  | none => s.fields
  | some m => s.fields.set m.fieldName m.token

/-- `payload`. -/
def payload (instant : ℚ) : Except SubmissionError (Dict String String) := do
  s.assertAuthorized instant
  return s.fieldsWithToken

/-- `FormSubmission(…)`, at an instant. -/
def create (instant : ℚ) (target method : String) (fields : Dict String String) (authenticationRef : Option String)
    (csrf : Option CSRFTokenMaterial) (approval : Option FormSubmissionApproval) : Except SubmissionError (FormSubmission c) := do
  let target ← (httpsUrl c target).mapError .flow
  let ⟨method, mutates⟩ ← (proposedMethod c method).mapError .flow
  let fields ← (validatedFormFields fields).mapError .flow
  let authenticationRef ← (authenticationRef.mapM fun reference => boundedReference reference "authentication_ref").mapError .flow
  let ⟨csrf, bound⟩ ← (boundToken c target method fields csrf).mapError .flow
  let submission : FormSubmission c := {target, method, fields, authenticationRef, csrf, approval, mutates, bound}
  submission.assertAuthorized instant
  return submission

end FormSubmission

/-! ### The provider -/

/-- Proposals, each under its own reference. -/
structure InMemoryFormSubmissionProvider where
  submissions : Dict String (FormSubmission c)
  keyed : ∀ reference s, submissions.get? reference = some s → s.authenticationRef = some reference

namespace InMemoryFormSubmissionProvider
variable {c}

def references (p : InMemoryFormSubmissionProvider c) : List String := p.submissions.entries.map (·.1)

def empty : InMemoryFormSubmissionProvider c := ⟨∅, by simp⟩

/-- One turn of the loop of `__init__`. -/
def validated (p : InMemoryFormSubmissionProvider c) (entry : String × FormSubmission c) :
    Except AuthFlowError (InMemoryFormSubmissionProvider c) := do
  let normalized ← boundedReference entry.1 "authentication_ref"
  if entry.2.authenticationRef.isNone then .error (.flow "provider form submissions require an opaque authentication_ref")
  else if h : entry.2.authenticationRef = some normalized then
    return {
      submissions := p.submissions.set normalized entry.2
      keyed := by
        intro reference s hs
        rw [Dict.get?_set] at hs
        split at hs
        · rename_i heq
          cases hs
          rw [h, heq]
        · exact p.keyed reference s hs}
  else .error (.flow "provider key must match the form submission authentication_ref")

/-- `InMemoryFormSubmissionProvider(…)`. -/
def create (submissions : Dict String (FormSubmission c)) : Except AuthFlowError (InMemoryFormSubmissionProvider c) :=
  submissions.entries.foldlM validated empty

/-- The proposals but for one. -/
def without (p : InMemoryFormSubmissionProvider c) (reference : String) : InMemoryFormSubmissionProvider c where
  submissions := p.submissions.erase reference
  keyed := by
    intro other s hs
    rw [Dict.get?_erase] at hs
    split at hs
    · cases hs
    · exact p.keyed other s hs

/-- `self._submissions.pop(reference)`. -/
def pop (p : InMemoryFormSubmissionProvider c) (reference : String) :
    Except SubmissionError (FormSubmission c) × InMemoryFormSubmissionProvider c :=
  match p.submissions.get? reference with
  | none => (.error (.notFound "approved form submission is unavailable"), p)
  | some s => (.ok s, p.without reference)

/-- `consume`: the approval is checked when the proposal is out already. -/
def consume (p : InMemoryFormSubmissionProvider c) (authenticationRef : String) (instant : ℚ) :
    Except SubmissionError (FormSubmission c) × InMemoryFormSubmissionProvider c :=
  match boundedReference authenticationRef "authentication_ref" with
  | .error err => (.error (.flow err), p)
  | .ok reference =>
    let (popped, left) := p.pop reference
    (do
      let s ← popped
      s.assertAuthorized instant
      return s, left)

end InMemoryFormSubmissionProvider

end

/-! ### What an approval permits -/

section
variable {c : Codecs}

/-- An approval is for one target and one method, and for a while. -/
theorem permits_iff {a : FormSubmissionApproval} {target method : String} {instant : ℚ} :
    a.permits c target method instant = true ↔
      httpsUrl c target = .ok a.target ∧ formMethod c method = .ok a.method ∧ a.grantedAt ≤ instant ∧ instant < a.expiresAt := by
  unfold FormSubmissionApproval.permits
  cases httpsUrl c target <;> cases formMethod c method <;> simp [and_assoc]

theorem appliesTo_iff {m : CSRFTokenMaterial} {target method : String} : m.appliesTo c target method = true ↔
    httpsUrl c target = .ok m.formAction ∧ formMethod c method = .ok m.formMethod := by
  unfold CSRFTokenMaterial.appliesTo
  cases httpsUrl c target <;> cases formMethod c method <;> simp

/-- A proposal is authorised at an instant if its approval permits it then. -/
def FormSubmission.AuthorizedAt (s : FormSubmission c) (instant : ℚ) : Prop :=
  ∃ a, s.approval = some a ∧ httpsUrl c s.target = .ok a.target ∧ formMethod c s.method = .ok a.method ∧
    a.grantedAt ≤ instant ∧ instant < a.expiresAt

/-- Every proposal needs an approval. -/
theorem assertAuthorized_eq_ok {s : FormSubmission c} {instant : ℚ} {u : Unit} :
    s.assertAuthorized instant = .ok u ↔ s.AuthorizedAt instant := by
  unfold FormSubmission.assertAuthorized FormSubmission.isMutating FormSubmission.AuthorizedAt
  rw [require_eq_ok, s.mutates]
  simp [Option.any_eq_true, permits_iff]

end

end Fetech.AuthFlows
