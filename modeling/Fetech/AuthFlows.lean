import Fetech.Auth
import Fetech.Lib.Dict
import Fetech.Lib.Except
import Fetech.Lib.Utf8

/-! CSRF tokens of pages (`fetech/auth_flows.py`).

A page is read as the tags that `HTMLParser` finds in it, which is a parameter. The parser goes
through them with the form that is open, and puts down every hidden input with a name that is
looked for; what it put down counts if the action of its form leads back to the page's origin. -/
namespace Fetech.AuthFlows
open Lib Lib.Except Lib.Url

inductive AuthFlowError where
  /-- A `CSRFExtractionError`. -/
  | extraction (message : String)
  | tokenNotFound (message : String)
  | tokenAmbiguous (message : String)
  /-- Any other `AuthFlowError`. -/
  | flow (message : String)
  /-- An `AuthFlowError` with the text of a library's `ValueError`. -/
  | wrapped
  /-- A `ValueError` of a library. -/
  | value
  deriving DecidableEq

/-! ### Limits -/

def maximumCsrfHtmlBytes : Int := 256 * 1024
def maximumCsrfForms : Int := 32
def maximumCsrfFields : Int := 256
def maximumCsrfTokenBytes : Nat := 4 * 1024

/-- `_bounded_limit`. -/
def boundedLimit (value maximum : Int) (message : String) : Except AuthFlowError Unit :=
  require (!(value < 1 || maximum < value)) (.extraction message)

/-- `len(value.encode("utf-8"))` -/
def utf8Length (value : String) : Nat := (value.toList.map Char.utf8Size).sum

/-- `_validate_secret_value`. -/
def validateSecretValue (value : String) (message : String) (maximumBytes : Nat) : Except AuthFlowError Unit :=
  require (!value.toList.isEmpty && !value.toList.contains '\x00' && utf8Length value ≤ maximumBytes) (.flow message)

def tokenMessage : String := "CSRF token must be non-empty, bounded, and contain no NUL bytes"

/-- `_FIELD_NAME.fullmatch` -/
def isFieldName (name : List Char) : Bool :=
  !name.isEmpty && name.length ≤ 128 && name.all fun ch => isAlpha ch || isDigit ch || ['_', '.', ':', '-', '[', ']'].contains ch

/-! ### Targets and methods -/

section
variable (c : Codecs)

/-- `_https_url`. -/
def httpsUrl (url : String) : Except AuthFlowError String := do
  let candidate := strip url.toList
  let parts ← ofOption .value (urlsplit c.toTables candidate)
  require (c.lower parts.scheme = "https".toList) (.flow "authenticated flow targets must use HTTPS")
  require (!parts.hasUserinfo) (.flow "authenticated flow targets cannot contain user information")
  require (!(parts.hostname c.toTables).isEmpty) (.flow "authenticated flow targets require a hostname")
  require parts.fragment.isEmpty (.flow "authenticated flow targets cannot contain fragments")
  let origin ← ofOption .wrapped (canonicalOrigin c (String.ofList candidate))
  let originParts ← ofOption .value (urlsplit c.toTables origin.toList)
  return String.ofList (urlunsplit {
    scheme := "https".toList
    netloc := originParts.netloc
    path := if parts.path.isEmpty then ['/'] else parts.path
    query := parts.query
    fragment := [] })

def formMethods : List String := ["GET", "POST", "PUT", "PATCH", "DELETE"]

/-- `method.strip().upper()` -/
def normalizedMethod (method : String) : String := String.ofList (c.upper (strip method.toList))

/-- `_form_method`. -/
def formMethod (method : String) : Except AuthFlowError String := do
  require (formMethods.contains (normalizedMethod c method)) (.flow "form method is unsupported")
  return normalizedMethod c method

structure CSRFTokenMaterial where
  sourceUrl : String
  formAction : String
  formMethod : String
  fieldName : String
  token : String
  deriving DecidableEq

/-- `CSRFTokenMaterial(…)`: the fields are checked and the URLs and the method put in one spelling. -/
def CSRFTokenMaterial.create (sourceUrl formAction method fieldName token : String) : Except AuthFlowError CSRFTokenMaterial := do
  let sourceUrl ← httpsUrl c sourceUrl
  let formAction ← httpsUrl c formAction
  let method ← AuthFlows.formMethod c method
  let sourceOrigin ← ofOption .value (canonicalOrigin c sourceUrl)
  let formOrigin ← ofOption .value (canonicalOrigin c formAction)
  require (sourceOrigin = formOrigin) (.extraction "CSRF form action must use the source page origin")
  require (isFieldName fieldName.toList) (.extraction "CSRF field name is invalid")
  validateSecretValue token tokenMessage maximumCsrfTokenBytes
  return {sourceUrl, formAction, formMethod := method, fieldName, token}

/-! ### Tags -/

abbrev Attributes := List (String × Option String)

/-- What `HTMLParser` calls a handler for; a tag that closes itself is two. -/
inductive Tag where
  | start (name : String) (attrs : Attributes)
  | finish (name : String)
  deriving DecidableEq

/-- The tags of a text in their order, and whether the parser went through it without raising. -/
abbrev HTMLParser := Text → List Tag × Bool

/-- `name.casefold() == word` -/
def isNamed (word name : String) : Bool := c.casefold name.toList = word.toList

/-- `_attributes(attrs).get(word, default)`, of names that are there once. -/
def valueOf (attrs : Attributes) (word default : String) : String :=
  match attrs.find? (fun attr => isNamed c word attr.1) with
  | some (_, value) => value.getD ""
  | none => default

/-- The check of `_attributes`. -/
def checkAttributes (attrs : Attributes) : Except AuthFlowError Unit :=
  require ((attrs.map fun attr => c.casefold attr.1.toList).Nodup) (.extraction "duplicate HTML form attributes are rejected")

/-! ### `_BoundedCSRFParser` -/

structure FormState where
  action : String
  method : String
  deriving DecidableEq

/-- A hidden input, with the form in which it stands. -/
structure Candidate where
  action : String
  method : String
  name : String
  token : String
  deriving DecidableEq

structure BoundedCSRFParser where
  forms : Nat := 0
  fields : Nat := 0
  form : Option FormState := none
  candidates : List Candidate := []

variable (fieldNames : List (List Char)) (maxForms maxFields : Int)

/-- Whether an input is hidden and has a name that is looked for. -/
def isSought (attrs : Attributes) : Bool :=
  isNamed c "hidden" (valueOf c attrs "type" "text") && fieldNames.contains (c.casefold (valueOf c attrs "name" "").toList)

/-- `handle_starttag`. -/
def handleStarttag (s : BoundedCSRFParser) (tag : String) (attrs : Attributes) : Except AuthFlowError BoundedCSRFParser := do
  checkAttributes c attrs
  if isNamed c "form" tag then do
    require s.form.isNone (.extraction "nested form data is rejected")
    require ((s.forms + 1 : Int) ≤ maxForms) (.extraction "HTML exceeds the bounded CSRF form budget")
    return {s with forms := s.forms + 1, form := some ⟨valueOf c attrs "action" "", valueOf c attrs "method" "GET"⟩}
  else
    match s.form with
    | none => return s
    | some form =>
      if !isNamed c "input" tag then return s
      else do
        require ((s.fields + 1 : Int) ≤ maxFields) (.extraction "HTML exceeds the bounded CSRF field budget")
        if !isSought c fieldNames attrs then return {s with fields := s.fields + 1}
        else do
          let token := valueOf c attrs "value" ""
          validateSecretValue token tokenMessage maximumCsrfTokenBytes
          return {s with
            fields := s.fields + 1
            candidates := s.candidates ++ [⟨form.action, form.method, valueOf c attrs "name" "", token⟩]}

/-- `handle_endtag`. -/
def handleEndtag (s : BoundedCSRFParser) (tag : String) : BoundedCSRFParser :=
  if isNamed c "form" tag then {s with form := none} else s

def handleTag (s : BoundedCSRFParser) : Tag → Except AuthFlowError BoundedCSRFParser
  | .start name attrs => handleStarttag c fieldNames maxForms maxFields s name attrs
  | .finish name => .ok (handleEndtag c s name)

/-- `parser.feed(text)` and `parser.close()`. -/
def feed (stream : List Tag × Bool) : Except AuthFlowError BoundedCSRFParser :=
  let unsafeData := AuthFlowError.extraction "HTML form data could not be parsed safely"
  match stream.1.foldlM (handleTag c fieldNames maxForms maxFields) {} with
  | .ok s => if stream.2 then .ok s else .error unsafeData
  | .error (.extraction message) => .error (.extraction message)
  | .error _ => .error unsafeData

/-! ### `extract_csrf_token` -/

/-- The key of `accepted`: action, method, name and token. -/
abbrev Key := String × String × String × String

/-- `_https_url(urljoin(source_url, url))`; `none` is a `ValueError`. -/
def resolved (sourceUrl url : String) : Option String := do
  let joined ← urljoin c.toTables sourceUrl.toList url.toList
  (httpsUrl c (String.ofList joined)).toOption

/-- `action or source_url` -/
def actionOr (sourceUrl action : String) : String := if action.toList.isEmpty then sourceUrl else action

/-- What the loop accepts of one candidate. -/
def acceptCandidate (sourceUrl sourceOrigin : String) (expected : Option String) (candidate : Candidate) :
    Except AuthFlowError (Option (Key × CSRFTokenMaterial)) :=
  match resolved c sourceUrl (actionOr sourceUrl candidate.action) with
  | none => .ok none
  | some action => do
    let origin ← ofOption .value (canonicalOrigin c action)
    if origin ≠ sourceOrigin ∨ expected.any (· ≠ action) then return none
    else do
      let material ← CSRFTokenMaterial.create c sourceUrl action candidate.method candidate.name candidate.token
      return some ((action, material.formMethod, candidate.name, candidate.token), material)

/-- One turn of the loop over the candidates. -/
def acceptTurn (sourceUrl sourceOrigin : String) (expected : Option String) (accepted : Dict Key CSRFTokenMaterial)
    (candidate : Candidate) : Except AuthFlowError (Dict Key CSRFTokenMaterial) := do
  match ← acceptCandidate c sourceUrl sourceOrigin expected candidate with
  | none => return accepted
  | some (key, material) => return accepted.set key material

/-- The action that is asked for, in the spelling of the page's. -/
def expectedUrl (sourceUrl sourceOrigin : String) : Option String → Except AuthFlowError (Option String)
  | none => .ok none
  | some action => do
    let joined ← ofOption .value (urljoin c.toTables sourceUrl.toList action.toList)
    let expected ← httpsUrl c (String.ofList joined)
    let origin ← ofOption .value (canonicalOrigin c expected)
    require (origin = sourceOrigin) (.extraction "expected CSRF form action must be same-origin")
    return some expected

inductive Html where
  | bytes (raw : List UInt8)
  | text (content : Text)

/-- The text of a page and the number of its bytes; `none` is the `UnicodeEncodeError`. -/
def Html.read : Html → Option (Text × Nat)
  | bytes raw => some (Utf8.decodeReplace raw, raw.length)
  | text content => (Utf8.encode content).map fun raw => (content, raw.length)

/-- The names that are looked for, each once. -/
def normalizedNames (names : List String) : List (List Char) := (names.map fun name => c.casefold name.toList).dedup

/-- `_DEFAULT_CSRF_FIELD_NAMES`. -/
def defaultCsrfFieldNames : List String :=
  ["_csrf", "_csrf_token", "__requestverificationtoken", "authenticity_token", "csrf", "csrf_token", "csrftoken"]

/-- The arguments of `extract_csrf_token` after the page and its URL. -/
structure Options where
  expectedAction : Option String := none
  fieldNames : List String := defaultCsrfFieldNames
  maxHtmlBytes : Int := maximumCsrfHtmlBytes
  maxForms : Int := maximumCsrfForms
  maxFields : Int := maximumCsrfFields

/-- The one material that was accepted. -/
def onlyMaterial (accepted : Dict Key CSRFTokenMaterial) : Except AuthFlowError CSRFTokenMaterial :=
  match accepted.values with
  | [] => .error (.tokenNotFound "no bounded same-origin CSRF form token was found")
  | [material] => .ok material
  | _ => .error (.tokenAmbiguous "several different same-origin CSRF tokens were found")

/-- `extract_csrf_token`. -/
def extractCsrfToken (htmlParser : HTMLParser) (html : Html) (pageUrl : String) (o : Options) :
    Except AuthFlowError CSRFTokenMaterial := do
  boundedLimit o.maxHtmlBytes maximumCsrfHtmlBytes "CSRF HTML byte limit must be positive and no greater than 262144"
  boundedLimit o.maxForms maximumCsrfForms "CSRF form limit must be positive and no greater than 32"
  boundedLimit o.maxFields maximumCsrfFields "CSRF field limit must be positive and no greater than 256"
  let sourceUrl ← httpsUrl c pageUrl
  let sourceOrigin ← ofOption .value (canonicalOrigin c sourceUrl)
  let expected ← expectedUrl c sourceUrl sourceOrigin o.expectedAction
  let (text, size) ← ofOption .value html.read
  require ((size : Int) ≤ o.maxHtmlBytes) (.extraction "HTML exceeds the bounded CSRF extraction budget")
  let names := normalizedNames c o.fieldNames
  require (!names.isEmpty && names.length ≤ 32 && names.all isFieldName)
    (.extraction "CSRF field-name allowlist is invalid or unbounded")
  let parser ← feed c names o.maxForms o.maxFields (htmlParser text)
  let accepted ← parser.candidates.foldlM (acceptTurn c sourceUrl sourceOrigin expected) ∅
  onlyMaterial accepted

end

end Fetech.AuthFlows
