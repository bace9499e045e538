import Fetech.Lib.Query
import Fetech.Security

/-! Documents and what may be shown of them (`fetech/security.py`, `fetech/ledger.py`).

Two recursive functions take secrets out of a document: `sanitize_output_for_request` for
what a caller sees and `_sanitize_payload` for what the ledger stores. Each knows URL
fields by their key; the second also redacts whole values by their key. They were written
apart, with different lists of keys and different spellings of a key. -/
namespace Fetech
open Lib.Url

/-- What JSON and Python hold: `scalar` is a number or a truth value, `object` any other
value, by what `str` shows of it. Tuples are lists. -/
inductive Document where
  | null
  | scalar (literal : String)
  | text (s : String)
  | object (shown : String)
  | list (items : List Document)
  | mapping (fields : List (String × Document))

namespace Document

/-- `document.get(key)` of a mapping; `none` stands for Python's `None`. -/
def get? (fields : List (String × Document)) (key : String) : Option Document :=
  match fields.lookup key with
  | some .null => none
  | value => value

end Document

/-! ### URLs -/

/-- `SENSITIVE_QUERY_KEYS`. -/
def sensitiveQueryKeys : List String :=
  ["access_token", "api_key", "apikey", "auth", "code", "key", "password", "signature", "sig", "token"]

def redacted : String := "[REDACTED]"

def redactedInvalidUrl : String := "[REDACTED_INVALID_URL]"

/-- The query `sanitize_url` shows. -/
def sanitizeQuery (c : Codecs) (redactQuery : Bool) (query : List Char) : List Char :=
  urlencode ((parseQsl query).map fun pair =>
    (pair.1, if redactQuery || sensitiveQueryKeys.contains (String.ofList (c.lower pair.1)) then redacted.toList
      else pair.2))

/-- What both sanitizers make of a URL field. -/
def sanitizeUrlField (c : Codecs) (redactQuery : Bool) (value : String) : String :=
  (sanitizeUrl c (sanitizeQuery c) value redactQuery).getD redactedInvalidUrl

/-! ### URLs in text -/

/-- `[\s<>"']`: what ends a URL in text. -/
def isDelimiter (ch : Char) : Bool := isSpace ch || ch == '<' || ch == '>' || ch == '"' || ch == '\''

/-- A letter of the pattern, its case ignored; Python takes a long s for an s. -/
def matchesLetter (letter ch : Char) : Bool := ch.toLower == letter || (letter == 's' && ch == 'ſ')

/-- The letters, followed by something that may stand in a URL. -/
def opensWith : List Char → List Char → Bool
  | [], s => (s.head?.map (!isDelimiter ·)).getD false
  | _ :: _, [] => false
  | letter :: letters, ch :: rest => matchesLetter letter ch && opensWith letters rest

/-- `https?://[^\s<>"']+` matches here. -/
def startsUrl (s : List Char) : Bool := opensWith "http://".toList s || opensWith "https://".toList s

/-- `.,;)]}`: what is not counted to a URL that it ends. -/
def isTrailing (ch : Char) : Bool := ['.', ',', ';', ')', ']', '}'].contains ch

/-- `replace_url`. -/
def replaceUrl (c : Codecs) (candidate : List Char) : List Char :=
  let trailing := (candidate.reverse.takeWhile isTrailing).reverse
  let url := (candidate.reverse.dropWhile isTrailing).reverse
  (sanitizeUrlField c true (String.ofList url)).toList ++ trailing

/-- `_URL_IN_TEXT.sub(replace_url, …)`, `skip` characters being part of a match already. -/
def scanText (c : Codecs) : Nat → List Char → List Char
  | _, [] => []
  | skip + 1, _ :: rest => scanText c skip rest
  | 0, ch :: rest =>
    if startsUrl (ch :: rest) then
      let candidate := (ch :: rest).takeWhile (!isDelimiter ·)
      replaceUrl c candidate ++ scanText c (candidate.length - 1) rest
    else ch :: scanText c 0 rest

def sanitizeAuthenticatedText (c : Codecs) (value : String) : String := String.ofList (scanText c 0 value.toList)

/-! ### What a caller sees -/

/-- `_URL_FIELD_NAMES`. -/
def urlFieldNames : List String :=
  ["action", "authority_url", "candidate", "canonical_url", "destination", "normalized_target", "parent_url",
    "requested_url", "root_url", "source_url", "target", "url"]

/-- `.replace("-", "_").replace(" ", "_")`. -/
def underscored (key : List Char) : List Char := key.map fun ch => if ch == '-' || ch == ' ' then '_' else ch

/-- `sanitize_output_for_request` takes the field for a URL. -/
def isOutputUrl (c : Codecs) (key : String) : Bool :=
  let normalizedKey := underscored (c.casefold key.toList)
  urlFieldNames.contains (String.ofList normalizedKey) || "_url".toList.isSuffixOf normalizedKey

/-- A text of an output. -/
def outputText (c : Codecs) (authenticated : Bool) (key value : String) : String :=
  if isOutputUrl c key then sanitizeUrlField c authenticated value
  else if authenticated then sanitizeAuthenticatedText c value else value

mutual
def sanitizeOutputForRequest (c : Codecs) (authenticated : Bool) (key : String) : Document → Document
  | .mapping fields => .mapping (outputFields c authenticated fields)
  | .list items => .list (outputItems c authenticated key items)
  | .text s => .text (outputText c authenticated key s)
  | .null => .null
  | .scalar literal => .scalar literal
  | .object shown => .object shown

def outputFields (c : Codecs) (authenticated : Bool) : List (String × Document) → List (String × Document)
  | [] => []
  | (key, child) :: rest => (key, sanitizeOutputForRequest c authenticated key child) :: outputFields c authenticated rest

def outputItems (c : Codecs) (authenticated : Bool) (key : String) : List Document → List Document
  | [] => []
  | child :: rest => sanitizeOutputForRequest c authenticated key child :: outputItems c authenticated key rest
end

/-! ### What the ledger stores -/

def safeTokenMetrics : List String :=
  ["estimated_tokens", "graphify_tokens", "input_tokens", "model_tokens", "output_tokens", "qmd_tokens",
    "source_tokens", "token_budget", "token_limit", "token_usage", "tokens_used", "total_tokens"]

def secretFragments : List String :=
  ["authentication", "authorization", "credential", "apikey", "token", "cookie", "password", "secret"]

/-- `needle in hay`. -/
def occursIn (needle hay : List Char) : Bool := hay.tails.any needle.isPrefixOf

/-- `_sanitize_payload` redacts the value whatever it is. -/
def isRedactedKey (c : Codecs) (key : String) : Bool :=
  let normalizedKey := underscored (c.lower key.toList)
  let compactKey := normalizedKey.filter (· != '_')
  let authComponent := normalizedKey == "auth".toList || "auth_".toList.isPrefixOf normalizedKey ||
    "_auth".toList.isSuffixOf normalizedKey || occursIn "_auth_".toList normalizedKey
  normalizedKey == "body".toList || authComponent ||
    (!safeTokenMetrics.contains (String.ofList normalizedKey) && secretFragments.any (occursIn ·.toList compactKey))

def payloadUrlNames : List String :=
  ["authority_url", "candidate", "canonical_url", "destination", "normalized_target", "parent_url", "requested_url",
    "root_url", "source_url", "target", "url"]

/-- `_sanitize_payload` takes the field for a URL. -/
def isPayloadUrl (c : Codecs) (key : String) : Bool := payloadUrlNames.contains (String.ofList (c.lower key.toList))

/-- A text of a payload, under a key that is not redacted. -/
def payloadText (c : Codecs) (authenticated : Bool) (key value : String) : String :=
  if isPayloadUrl c key then sanitizeUrlField c authenticated value
  else if authenticated then sanitizeAuthenticatedText c value else value

mutual
def sanitizePayload (c : Codecs) (authenticated : Bool) (key : String) (value : Document) : Document :=
  if isRedactedKey c key then .text redacted
  else match value with
    | .mapping fields => .mapping (payloadFields c authenticated fields)
    | .list items => .list (payloadItems c authenticated key items)
    | .text s => .text (payloadText c authenticated key s)
    | .null => .null
    | .scalar literal => .scalar literal
    | .object shown => .object shown

def payloadFields (c : Codecs) (authenticated : Bool) : List (String × Document) → List (String × Document)
  | [] => []
  | (key, child) :: rest => (key, sanitizePayload c authenticated key child) :: payloadFields c authenticated rest

def payloadItems (c : Codecs) (authenticated : Bool) (key : String) : List Document → List Document
  | [] => []
  | child :: rest => sanitizePayload c authenticated key child :: payloadItems c authenticated key rest
end

mutual
/-- `json.dumps(…, default=str)`, read back: whatever JSON has no form for is written as
the text `str` shows. -/
def dumped : Document → Document
  | .mapping fields => .mapping (dumpedFields fields)
  | .list items => .list (dumpedItems items)
  | .object shown => .text shown
  | .text s => .text s
  | .null => .null
  | .scalar literal => .scalar literal

def dumpedFields : List (String × Document) → List (String × Document)
  | [] => []
  | (key, child) :: rest => (key, dumped child) :: dumpedFields rest

def dumpedItems : List Document → List Document
  | [] => []
  | child :: rest => dumped child :: dumpedItems rest
end

end Fetech
