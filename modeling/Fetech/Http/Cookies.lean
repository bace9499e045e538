import Mathlib.Data.List.Sort
import Fetech.Auth
import Fetech.Lib.Except

/-! Cookies handed from one hop of a form login to the next (`fetech/adapters/http.py`).

The client's own cookie jar is emptied before every request; what a login sets is kept
in a map of its own, by name and path, after checks no jar makes. How a `Set-Cookie`
header is parsed is the library's affair: a response comes with its headers and with the
jar they were parsed into. -/
namespace Fetech.Http
open Lib.Url Lib.Except

/-- A cookie of `response.cookies.jar`. -/
structure JarCookie where
  name : String
  value : Option String
  path : String
  domain : String
  secure : Bool
  expires : Option ℚ := none
  deriving DecidableEq

/-- `_EphemeralCookie`. -/
structure EphemeralCookie where
  name : String
  value : String
  path : String
  deriving DecidableEq

/-- The captured cookies, by name and path. -/
abbrev CookieMap := Lib.Dict (String × String) EphemeralCookie

def cookieCountLimit : Nat := 16
def cookieNameLimit : Nat := 128
def cookieValueLimit : Nat := 4096
def cookiePathLimit : Nat := 1024
def cookieHeaderLimit : Nat := 8192
def setCookieLimit : Nat := 16384

/-- What capturing and rendering raise: an `AdapterExecutionError`, or a `ValueError`
where text does not encode or a URL does not parse. -/
inductive CookieError where
  | execution (message : String)
  | value
  deriving DecidableEq

/-- `len(text.encode(…))` for an encoding of one byte a character, up to a last one. -/
def encodedLength (last : Nat) (text : String) : Except CookieError Nat := do
  require (text.toList.all fun ch => ch.toNat ≤ last) .value
  return text.length

/-! ### Validation -/

/-- `_COOKIE_NAME`. -/
def isCookieName (name : String) : Bool :=
  !name.isEmpty && name.toList.all fun ch =>
    "!#$%&'*+-.^_`|~".toList.contains ch || isDigit ch || isAlpha ch

/-- `_COOKIE_VALUE`. -/
def isCookieValue (value : String) : Bool :=
  value.toList.all fun ch =>
    let n := ch.toNat
    n = 0x21 || (0x23 ≤ n && n ≤ 0x2B) || (0x2D ≤ n && n ≤ 0x3A) || (0x3C ≤ n && n ≤ 0x5B) ||
      (0x5D ≤ n && n ≤ 0x7E)

namespace JarCookie
variable (cookie : JarCookie)

/-- `cookie.path or "/"`. -/
def effectivePath : String := if cookie.path.isEmpty then "/" else cookie.path

def key : String × String := (cookie.name, cookie.effectivePath)

/-- The domain without its leading and trailing dots, in lower case. -/
def bareDomain (c : Codecs) : List Char :=
  rstrip '.' (c.lower (cookie.domain.toList.dropWhile (· == '.')))

def expiredAt (now : ℚ) : Bool := cookie.expires.any fun expiry => decide (expiry ≤ now)

/-- The checks a cookie of the host must pass. -/
def acceptable (c : Codecs) (host : List Char) (value : String) : Bool :=
  cookie.secure && cookie.bareDomain c == host && decide (cookie.name.length ≤ cookieNameLimit) &&
    decide (value.length ≤ cookieValueLimit) && decide (cookie.effectivePath.length ≤ cookiePathLimit) &&
    isCookieName cookie.name && isCookieValue value && cookie.effectivePath.toList.head? == some '/' &&
    cookie.effectivePath.toList.all fun ch => !(decide (ch.toNat < 32) || decide (ch.toNat = 127))

end JarCookie

/-! ### Rendering -/

/-- `sorted(…, key=lambda cookie: (-len(cookie.path), cookie.name))`. -/
def EphemeralCookie.precedes (a b : EphemeralCookie) : Prop :=
  b.path.length < a.path.length ∨ (a.path.length = b.path.length ∧ a.name ≤ b.name)

instance : DecidableRel EphemeralCookie.precedes := fun _ _ => inferInstanceAs (Decidable (_ ∨ _))

def sortCookies (cookies : List EphemeralCookie) : List EphemeralCookie :=
  cookies.insertionSort EphemeralCookie.precedes

def renderCookies (cookies : List EphemeralCookie) : String :=
  "; ".intercalate (cookies.map fun cookie => cookie.name ++ "=" ++ cookie.value)

/-- `_cookie_path_matches`. -/
def cookiePathMatches (cookiePath targetPath : List Char) : Bool :=
  if targetPath = cookiePath then true
  else if !cookiePath.isPrefixOf targetPath then false
  else cookiePath.getLast? == some '/' || targetPath[cookiePath.length]? == some '/'

/-- `urlsplit(target).path or "/"`. -/
def targetPath (c : Codecs) (url : String) : Option (List Char) :=
  (urlsplit c.toTables url.toList).map fun parts => if parts.path.isEmpty then ['/'] else parts.path

/-- The cookies whose path matches, in the order they are sent. -/
def selectCookies (cookies : CookieMap) (path : List Char) : List EphemeralCookie :=
  sortCookies (cookies.values.filter fun cookie => cookiePathMatches cookie.path.toList path)

/-- The cookies of the header and its text; `[]` and `none` where no cookie matches. -/
def renderEphemeralCookieHeader (c : Codecs) (cookies : CookieMap) (targetUrl : String) :
    Except CookieError (List EphemeralCookie × Option String) := do
  let path ← ofOption .value (targetPath c targetUrl)
  let selected := selectCookies cookies path
  if selected.isEmpty then return ([], none)
  let rendered := renderCookies selected
  let length ← encodedLength 127 rendered
  require (length ≤ cookieHeaderLimit) (.execution "ephemeral login cookie exceeded security bounds")
  return (selected, some rendered)

/-! ### Capture -/

theorem nothing_parsed : ([] : List String) = [] → ([] : List JarCookie) = [] := fun _ => rfl

/-- The cookie side of a response: its `Set-Cookie` headers and the jar they were parsed
into. No header, no cookie. -/
structure ResponseCookies where
  setCookie : List String := []
  jar : List JarCookie := []
  parsed : setCookie = [] → jar = [] := by first | exact nothing_parsed | decide

/-- One cookie of the jar checked and entered, or dropped from the map when it is expired. -/
def captureCookie (c : Codecs) (host : List Char) (now : ℚ) (captured : CookieMap) (cookie : JarCookie) :
    Except CookieError CookieMap := do
  let value ← ofOption (.execution "ephemeral login cookie was malformed") cookie.value
  require (cookie.acceptable c host value) (.execution "ephemeral login cookie failed security validation")
  if cookie.expiredAt now then return captured.erase cookie.key
  else return captured.set cookie.key {name := cookie.name, value, path := cookie.effectivePath}

/-- The host cookies are compared with: IDNA, lower case, no trailing dot. -/
def cookieHost (c : Codecs) (parts : SplitResult) : Option (List Char) :=
  (c.idna (parts.hostname c.toTables)).map fun encoded => rstrip '.' (c.lower encoded)

/-- `_capture_ephemeral_login_cookies`. -/
def captureEphemeralLoginCookies (c : Codecs) (now : ℚ) (response : ResponseCookies) (sourceUrl : String)
    (existing : CookieMap) : Except CookieError CookieMap := do
  if response.setCookie.isEmpty then return existing
  require (response.setCookie.length ≤ cookieCountLimit)
    (.execution "ephemeral login cookie exceeded security bounds")
  let lengths ← response.setCookie.mapM (encodedLength 255)
  require (lengths.sum ≤ setCookieLimit) (.execution "ephemeral login cookie exceeded security bounds")
  require (response.jar.length = response.setCookie.length) (.execution "ephemeral login cookie was malformed")
  let parts ← ofOption .value (urlsplit c.toTables sourceUrl.toList)
  let host ← ofOption .value (cookieHost c parts)
  require (parts.scheme = "https".toList && !host.isEmpty) (.execution "ephemeral login cookies require HTTPS")
  let captured ← response.jar.foldlM (captureCookie c host now) existing
  require (captured.size ≤ cookieCountLimit) (.execution "ephemeral login cookie exceeded security bounds")
  let length ← encodedLength 127 (renderCookies (sortCookies captured.values))
  require (length ≤ cookieHeaderLimit) (.execution "ephemeral login cookie exceeded security bounds")
  return captured

/-- `_same_exact_origin`. -/
def sameExactOrigin (c : Codecs) (left right : String) : Bool :=
  match canonicalOrigin c left, canonicalOrigin c right with
  | some left, some right => left == right
  | _, _ => false

end Fetech.Http
