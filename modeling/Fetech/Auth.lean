import Fetech.Models
import Fetech.Lib.Url

/-! Credentials and the origins they are scoped to (`fetech/auth.py`, `fetech/auth_flows.py`).

A credential is quantified over as it stands: what `__post_init__` rejects (bad header
names, an origin that is not HTTPS) is not assumed away. Instants are seconds. -/
namespace Fetech
open Lib.Url

/-- The text tables of the platform: those URL parsing needs, the IDNA encoding of a
host name (`none` where encoding fails), case folding, upper case, `str.isdigit` and
the digits `\d` stands for. -/
structure Codecs extends Tables where
  idna : List Char → Option (List Char)
  casefold : List Char → List Char
  casefold_ascii : ∀ s, isAscii s = true → casefold s = asciiLower s
  upper : List Char → List Char
  isDigit : Char → Bool
  isDecimal : Char → Bool

/-- Codecs that treat all text as ASCII. -/
def asciiCodecs : Codecs where
  lower := asciiLower
  lower_ascii _ _ := rfl
  nfkc s := s
  isIPv6 _ := false
  idna s := some s
  casefold := asciiLower
  casefold_ascii _ _ := rfl
  upper s := s.map Char.toUpper
  isDigit := Lib.Url.isDigit
  isDecimal := Lib.Url.isDigit

/-- Scheme, host and effective port of a URL, in the one spelling origins are compared
in. `none` is the `ValueError`. -/
def canonicalOrigin (c : Codecs) (url : String) (originOnly : Bool := false) : Option String := do
  let parts ← urlsplit c.toTables (strip url.toList)
  let scheme := String.ofList (c.lower parts.scheme)
  guard (scheme = "http" ∨ scheme = "https")
  guard !parts.hasUserinfo
  guard !(parts.hostname c.toTables).isEmpty
  guard (!(originOnly && ((parts.path != [] && parts.path != ['/']) || !parts.query.isEmpty ||
    !parts.fragment.isEmpty)))
  let encoded ← c.idna (parts.hostname c.toTables)
  let host := rstrip '.' (c.lower encoded)
  let renderedHost := String.ofList (if host.contains ':' then '[' :: host ++ [']'] else host)
  let port ← parts.port
  let defaultPort := (scheme = "http" ∧ (port = none ∨ port = some 80)) ∨
    (scheme = "https" ∧ (port = none ∨ port = some 443))
  if defaultPort then return scheme ++ "://" ++ renderedHost
  else return scheme ++ "://" ++ renderedHost ++ ":" ++ (port.map toString).getD "None"

/-- An origin begins with the scheme of its URL. -/
theorem canonicalOrigin_eq_some {c : Codecs} {url o : String} (h : canonicalOrigin c url = some o) :
    ∃ parts rest, urlsplit c.toTables (strip url.toList) = some parts ∧
      o = String.ofList (c.lower parts.scheme) ++ "://" ++ rest := by
  simp only [canonicalOrigin, Option.bind_eq_bind, Option.bind_eq_some_iff] at h
  obtain ⟨parts, hparts, _, _, _, _, _, _, _, _, encoded, _, port, _, ho⟩ := h
  refine ⟨parts, ?_⟩
  split at ho
  · cases ho
    exact ⟨_, hparts, rfl⟩
  · cases ho
    exact ⟨_, hparts, by simp only [String.append_assoc]; rfl⟩

/-! ### Credential material -/

structure CredentialMaterial where
  origin : String
  capabilityId : String
  headers : Lib.Dict String String := ∅
  cookies : Lib.Dict String String := ∅
  expiresAt : Option ℚ := none
  deriving DecidableEq

namespace CredentialMaterial

def expired (m : CredentialMaterial) (now : ℚ) : Bool :=
  m.expiresAt.any fun expiry => decide (expiry ≤ now)

/-- `none` where the URL has no canonical origin. -/
def appliesTo (c : Codecs) (m : CredentialMaterial) (url : String) : Option Bool :=
  (canonicalOrigin c url).map (· == m.origin)

def requestHeaders (m : CredentialMaterial) : Lib.Dict String String :=
  if m.cookies.size = 0 then m.headers
  else m.headers.set "Cookie" ("; ".intercalate (m.cookies.entries.map fun e => e.1 ++ "=" ++ e.2))

end CredentialMaterial

/-! ### Sessions -/

inductive SessionCapability where
  | loginSession | oauth | sso | privateWorkspace
  deriving DecidableEq, Repr

/-- The text of a session capability. -/
def SessionCapability.value : SessionCapability → String
  | loginSession => "login_session"
  | oauth => "oauth"
  | sso => "sso"
  | privateWorkspace => "private_workspace"

structure OriginScopedSession where
  origin : String
  capabilityId : SessionCapability
  authenticationRef : String
  expiresAt : Option ℚ := none
  refreshRef : Option String := none
  refreshAfter : Option ℚ := none
  deriving DecidableEq

/-- `_MATERIAL_CAPABILITIES`. -/
def materialCapabilities : SessionCapability → List String
  | .loginSession => ["cookie_session"]
  | .oauth => ["bearer_token"]
  | .sso => ["bearer_token", "cookie_session"]
  | .privateWorkspace => ["api_key", "bearer_token", "cookie_session"]

/-- Whether `validate_material_binding` lets the material pass. -/
def OriginScopedSession.bindsMaterial (s : OriginScopedSession) (m : CredentialMaterial) : Bool :=
  m.origin == s.origin && (materialCapabilities s.capabilityId).contains m.capabilityId

end Fetech
