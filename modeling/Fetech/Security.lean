import Fetech.Auth
import Fetech.Lib.Except

/-! The one spelling of a target and the destination policy (`fetech/security.py`). -/
namespace Fetech
open Lib.Url Lib.Except

/-- `none` is the `ValueError`. -/
def normalizeUrl (c : Codecs) (target : String) : Option String := do
  let candidate := strip target.toList
  guard !candidate.isEmpty
  let parts ← urlsplit c.toTables candidate
  let scheme := c.lower parts.scheme
  guard (String.ofList scheme = "http" ∨ String.ofList scheme = "https")
  guard !parts.hasUserinfo
  guard !(parts.hostname c.toTables).isEmpty
  let encoded ← c.idna (parts.hostname c.toTables)
  let host := rstrip '.' (c.lower encoded)
  let port ← parts.port
  let defaultPort := (String.ofList scheme = "http" ∧ port = some 80) ∨
    (String.ofList scheme = "https" ∧ port = some 443)
  let displayedHost := if host.contains ':' then '[' :: host ++ [']'] else host
  let netloc := match port with
    | some n => if defaultPort then displayedHost else displayedHost ++ ':' :: (toString n).toList
    | none => displayedHost
  let path := if parts.path.isEmpty then ['/'] else parts.path
  return String.ofList (urlunsplit {scheme, netloc, path, query := parts.query, fragment := []})

/-- A URL without userinfo and fragment, its query as `query` shows it; `none` is the
`ValueError`. -/
def sanitizeUrl (c : Codecs) (query : Bool → List Char → List Char) (url : String) (redactQuery : Bool := false) :
    Option String := do
  let parts ← urlsplit c.toTables url.toList
  let hostname := parts.hostname c.toTables
  let displayedHostname := if hostname.contains ':' then '[' :: hostname ++ [']'] else hostname
  let port ← parts.port
  -- A port of 0 is not shown.
  let netloc := match port.filter (· ≠ 0) with
    | some n => displayedHostname ++ ':' :: (toString n).toList
    | none => displayedHostname
  return String.ofList (urlunsplit {
    scheme := parts.scheme, netloc, path := parts.path, query := query redactQuery parts.query, fragment := []})

/-- A URL that can be taken apart, its port included. -/
def Readable (c : Codecs) (url : String) : Prop :=
  ∃ parts port, urlsplit c.toTables url.toList = some parts ∧ parts.port = some port

/-- Whatever is shown of the query, a URL is sanitised if it is readable. -/
theorem sanitizeUrl_isSome {c : Codecs} {query : Bool → List Char → List Char} {url : String} {redactQuery : Bool} :
    (sanitizeUrl c query url redactQuery).isSome ↔ Readable c url := by
  unfold sanitizeUrl Readable
  cases hparts : urlsplit c.toTables url.toList with
  | none => simp
  | some parts => cases hport : parts.port <;> simp [hport]

/-- A normalised URL begins with the scheme of its target. -/
theorem normalizeUrl_shape {c : Codecs} {target url : String} (h : normalizeUrl c target = some url) :
    ∃ parts rest, urlsplit c.toTables (strip target.toList) = some parts ∧
      (c.lower parts.scheme = "http".toList ∨ c.lower parts.scheme = "https".toList) ∧
      url.toList = c.lower parts.scheme ++ ':' :: rest := by
  simp only [normalizeUrl, Option.bind_eq_bind, Option.bind_eq_some_iff] at h
  obtain ⟨_, _, parts, hparts, _, hguard, _, _, _, _, encoded, _, port, _, hurl⟩ := h
  have hscheme : c.lower parts.scheme = "http".toList ∨ c.lower parts.scheme = "https".toList := by
    have hname : String.ofList (c.lower parts.scheme) = "http" ∨ String.ofList (c.lower parts.scheme) = "https" := by
      by_contra hno
      simp [guard, hno] at hguard
    exact hname.imp (fun h => by rw [← h, String.toList_ofList]) fun h => by rw [← h, String.toList_ofList]
  have hnonempty : c.lower parts.scheme ≠ [] := by
    obtain h | h := hscheme <;> simp [h]
  have hshape : ∀ p : SplitResult, p.scheme = c.lower parts.scheme →
      ∃ rest, (String.ofList (urlunsplit p)).toList = c.lower parts.scheme ++ ':' :: rest := by
    intro p hp
    obtain ⟨rest, hrest⟩ := urlunsplit_eq (hp ▸ hnonempty)
    exact ⟨rest, by rw [String.toList_ofList, hrest, hp]⟩
  obtain ⟨rest, hrest⟩ : ∃ rest, url.toList = c.lower parts.scheme ++ ':' :: rest := by
    cases hurl
    exact hshape _ rfl
  exact ⟨parts, rest, hparts, hscheme, hrest⟩

/-- A normalised URL begins with its scheme. -/
theorem normalizeUrl_eq_some {c : Codecs} {target url : String} (h : normalizeUrl c target = some url) :
    ∃ name rest, (name = "http".toList ∨ name = "https".toList) ∧ url.toList = name ++ ':' :: rest := by
  obtain ⟨parts, rest, -, hscheme, hshape⟩ := normalizeUrl_shape h
  exact ⟨c.lower parts.scheme, rest, hscheme, hshape⟩

/-- The origin of a normalised URL of scheme `https` is one. -/
theorem https_of_normalized {c : Codecs} {target url o : String} {parts : SplitResult}
    (hurl : normalizeUrl c target = some url) (hparts : urlsplit c.toTables url.toList = some parts)
    (hscheme : parts.scheme = "https".toList) (ho : canonicalOrigin c url = some o) :
    ∃ rest, o = "https://" ++ rest := by
  obtain ⟨name, rest, hname, hshape⟩ := normalizeUrl_eq_some hurl
  have hvalid : IsScheme name := by
    obtain rfl | rfl := hname
    · exact isScheme_http
    · exact isScheme_https
  obtain ⟨parts', rest', hparts', rfl⟩ := canonicalOrigin_eq_some ho
  rw [hshape] at hparts hparts'
  obtain ⟨tail, hstrip⟩ := hvalid.strip_eq rest
  rw [hstrip] at hparts'
  have hhttps : name = "https".toList := (hvalid.urlsplit_scheme _ hparts).symm.trans hscheme
  refine ⟨rest', ?_⟩
  rw [hvalid.urlsplit_scheme _ hparts', c.lower_ascii _ hvalid.isAscii, hvalid.lower, hhttps]
  rfl

/-! ### Destinations -/

/-- What `evaluate` raises: a `PolicyBlockedError`, or a `ValueError` of URL parsing or of the resolver. -/
inductive PolicyError where
  | blocked (reason : String) (decisions : List PolicyDecision)
  | value
  deriving DecidableEq

/-- `BLOCKED_HOSTNAMES`. -/
def blockedHostnames : List String := ["localhost", "localhost.localdomain", "metadata.google.internal"]

/-- A `SafeURLPolicy`. `isPublicAddress` is the address parser's verdict, `invalidUrl` the
text of the `ValueError` for a target, `sanitizeUrl` a URL as it may be shown. -/
structure SafeUrlPolicy where
  codecs : Codecs
  allowedPorts : List Nat := [80, 443]
  allowPublicHttp : Bool := true
  blockedThreatHostnames : List String := []
  isPublicAddress : String → Bool
  invalidUrl : String → String
  sanitizeUrl : String → Option String

/-- Addresses by host, as `evaluate` validated them. -/
abbrev ValidatedAddresses := Lib.Dict String (List String)

/-- `validated_addresses(host)`. -/
def ValidatedAddresses.of (c : Codecs) (validated : ValidatedAddresses) (host : List Char) : List String :=
  validated.getD (String.ofList (rstrip '.' (c.lower host))) []

namespace SafeUrlPolicy
variable (p : SafeUrlPolicy)

def block (policyId reason : String) : PolicyError :=
  .blocked reason [{policyId, allowed := false, reason}]

/-- The checks on a normalised target before its host is resolved; the host and the
port to resolve. -/
def checkDestination (parts : SplitResult) (previousUrl : Option String) : Except PolicyError (String × Nat) := do
  let https := parts.scheme = "https".toList
  let http := parts.scheme = "http".toList
  match previousUrl.filter (!·.isEmpty) with
  | some previous =>
    let previous ← ofOption .value (urlsplit p.codecs.toTables previous.toList)
    require (!(previous.scheme = "https".toList ∧ http))
      (block "redirect_security" "HTTPS downgrade redirects are forbidden")
  | none => pure ()
  require (!(http ∧ !p.allowPublicHttp)) (block "url_validation" "public HTTP is disabled by the selected policy")
  let host := String.ofList (parts.hostname p.codecs.toTables)
  require (!(blockedHostnames.contains host || host.endsWith ".localhost"))
    (block "ssrf_private_ip_check" "local and metadata hostnames are blocked")
  require (!p.blockedThreatHostnames.contains host)
    (block "malware_phishing_check" "destination is present in the configured malware/phishing deny-list")
  let written ← ofOption .value parts.port
  -- `parts.port or …`: port 0 is read as no port.
  let port := (written.filter (· ≠ 0)).getD (if https then 443 else 80)
  require (p.allowedPorts.contains port)
    (block "ssrf_private_ip_check" ("destination port " ++ toString port ++ " is not allowed"))
  return (host, port)

/-- `_resolve`: `getaddrinfo` encodes the host before it asks, and only its `gaierror` counts as no address,
not the `UnicodeError` of a host that has no encoding. -/
def resolve (addresses : String → Nat → List String) (host : String) (port : Nat) : Except PolicyError (List String) := do
  let _ ← ofOption .value (p.codecs.idna host.toList)
  return addresses host port

/-- The target in its one spelling, the decisions to record and the addresses validated
so far; `addresses` is what the resolver answers for the host and port. -/
def evaluate (validated : ValidatedAddresses) (addresses : String → Nat → List String) (target : String)
    (previousUrl : Option String) : Except PolicyError (String × List PolicyDecision × ValidatedAddresses) := do
  let normalized ← ofOption (block "url_validation" (p.invalidUrl target)) (normalizeUrl p.codecs target)
  let parts ← ofOption .value (urlsplit p.codecs.toTables normalized.toList)
  let (host, port) ← p.checkDestination parts previousUrl
  let resolved ← p.resolve addresses host port
  require (!resolved.isEmpty) (block "dns_resolution_check" "hostname did not resolve")
  require (resolved.all p.isPublicAddress)
    (block "ssrf_private_ip_check" "destination resolved to a non-public address")
  let destination ← ofOption .value (p.sanitizeUrl normalized)
  let passed policyId reason : PolicyDecision := {policyId, allowed := true, reason, destination := some destination}
  return (normalized, [
    passed "url_validation" "valid HTTP(S) target",
    passed "dns_resolution_check" "hostname resolved",
    passed "ssrf_private_ip_check" "all resolved addresses are public",
    passed "malware_phishing_check" "destination is not in the configured threat deny-list"],
    validated.set host resolved)

/-- `evaluate` lets a target through, in this spelling, after the previous URL. -/
def Accepts (addresses : String → Nat → List String) (target : String) (previousUrl : Option String) (url : String) :
    Prop :=
  ∃ validated decisions validated', p.evaluate validated addresses target previousUrl = .ok (url, decisions, validated')

/-- A URL the policy has nothing against: its host is not blocked, its port allowed and
the addresses the host resolves to are public. -/
def Admits (addresses : String → Nat → List String) (url : String) : Prop :=
  ∃ parts written port, urlsplit p.codecs.toTables url.toList = some parts ∧
    (parts.scheme = "http".toList ∨ parts.scheme = "https".toList) ∧ parts.port = some written ∧
    port = (written.filter (· ≠ 0)).getD (if parts.scheme = "https".toList then 443 else 80) ∧
    String.ofList (parts.hostname p.codecs.toTables) ∉ blockedHostnames ++ p.blockedThreatHostnames ∧
    (String.ofList (parts.hostname p.codecs.toTables)).endsWith ".localhost" = false ∧ port ∈ p.allowedPorts ∧
    addresses (String.ofList (parts.hostname p.codecs.toTables)) port ≠ [] ∧
    ∀ address ∈ addresses (String.ofList (parts.hostname p.codecs.toTables)) port, p.isPublicAddress address = true

/-- The scheme of a URL is `https`. -/
def IsHttps (c : Codecs) (url : String) : Prop :=
  ∃ parts, urlsplit c.toTables url.toList = some parts ∧ parts.scheme = "https".toList

section
variable {p} {addresses : String → Nat → List String} {target url : String} {previousUrl : Option String}

/-- A normalised URL is read with the scheme it begins with. -/
theorem scheme_of_normalized {c : Codecs} {parts : SplitResult} (h : normalizeUrl c target = some url)
    (hparts : urlsplit c.toTables url.toList = some parts) :
    parts.scheme = "http".toList ∨ parts.scheme = "https".toList := by
  obtain ⟨name, rest, hname, hshape⟩ := normalizeUrl_eq_some h
  have hvalid : IsScheme name := by
    rcases hname with rfl | rfl
    · exact isScheme_http
    · exact isScheme_https
  rw [hshape] at hparts
  rw [hvalid.urlsplit_scheme _ hparts]
  exact hname

/-- What `evaluate` checks about a target before it resolves the host. -/
theorem checkDestination_eq_ok {parts : SplitResult} {host : String} {port : Nat}
    (h : p.checkDestination parts previousUrl = .ok (host, port)) :
    (∀ previous ∈ previousUrl.filter (!·.isEmpty), ∃ before, urlsplit p.codecs.toTables previous.toList = some before ∧
      ¬(before.scheme = "https".toList ∧ parts.scheme = "http".toList)) ∧
    host = String.ofList (parts.hostname p.codecs.toTables) ∧ host ∉ blockedHostnames ++ p.blockedThreatHostnames ∧
      host.endsWith ".localhost" = false ∧ port ∈ p.allowedPorts ∧ ∃ written, parts.port = some written ∧
        port = (written.filter (· ≠ 0)).getD (if parts.scheme = "https".toList then 443 else 80) := by
  have hrest : ∀ {name : String} {port' : Nat}, (!(blockedHostnames.contains name || name.endsWith ".localhost")) = true →
      (!p.blockedThreatHostnames.contains name) = true → p.allowedPorts.contains port' = true →
      name ∉ blockedHostnames ++ p.blockedThreatHostnames ∧ name.endsWith ".localhost" = false ∧
        port' ∈ p.allowedPorts := by
    intro name port' hlocal hthreat hallowed
    simp only [Bool.not_eq_true', Bool.or_eq_false_iff, List.contains_eq_mem, decide_eq_false_iff_not,
      decide_eq_true_eq] at hlocal hthreat hallowed
    refine ⟨fun hmem => ?_, hlocal.2, hallowed⟩
    exact (List.mem_append.mp hmem).elim hlocal.1 hthreat
  unfold checkDestination at h
  cases hprevious : previousUrl.filter (!·.isEmpty) with
  | none =>
    simp only [hprevious, bind_eq_ok, require_eq_ok, ofOption_eq_ok] at h
    obtain ⟨-, -, -, hlocal, -, hthreat, written, hwritten, -, hallowed, hreturn⟩ := h
    cases hreturn
    obtain ⟨hblocked, hlocal, hallowed⟩ := hrest hlocal hthreat hallowed
    exact ⟨by simp, rfl, hblocked, hlocal, hallowed, written, hwritten, rfl⟩
  | some previous =>
    simp only [hprevious, bind_eq_ok, require_eq_ok, ofOption_eq_ok] at h
    obtain ⟨before, hbefore, -, hdowngrade, -, -, -, hlocal, -, hthreat, written, hwritten, -, hallowed, hreturn⟩ := h
    cases hreturn
    obtain ⟨hblocked, hlocal, hallowed⟩ := hrest hlocal hthreat hallowed
    refine ⟨fun previous' hprevious' => ?_, rfl, hblocked, hlocal, hallowed, written, hwritten, rfl⟩
    cases hprevious'
    exact ⟨before, hbefore, by simpa only [Bool.not_eq_true', decide_eq_false_iff_not] using hdowngrade⟩

theorem resolve_eq_ok {host : String} {port : Nat} {resolved : List String} :
    p.resolve addresses host port = .ok resolved ↔ (∃ encoded, p.codecs.idna host.toList = some encoded) ∧
      addresses host port = resolved := by
  simp only [resolve, bind_eq_ok, ofOption_eq_ok]
  constructor
  · rintro ⟨encoded, hencoded, hresolved⟩
    exact ⟨⟨encoded, hencoded⟩, Except.ok.inj hresolved⟩
  · rintro ⟨⟨encoded, hencoded⟩, hresolved⟩
    exact ⟨encoded, hencoded, congrArg _ hresolved⟩

/-- A target that passes every check is let in, in its one spelling and with its addresses on record. -/
theorem evaluate_accepts (validated : ValidatedAddresses) {parts : SplitResult} {host destination : String} {port : Nat}
    {resolved : List String} (hnormal : normalizeUrl p.codecs target = some url)
    (hparts : urlsplit p.codecs.toTables url.toList = some parts)
    (hchecked : p.checkDestination parts previousUrl = .ok (host, port))
    (hresolved : p.resolve addresses host port = .ok resolved) (hsome : resolved ≠ [])
    (hpublic : ∀ address ∈ resolved, p.isPublicAddress address = true) (hshown : p.sanitizeUrl url = some destination) :
    ∃ decisions, p.evaluate validated addresses target previousUrl = .ok (url, decisions, validated.set host resolved) := by
  have hfound : (!resolved.isEmpty) = true := by
    cases resolved with
    | nil => exact absurd rfl hsome
    | cons address rest => rfl
  simp only [evaluate, bind_eq_ok, ofOption_eq_ok, require_eq_ok]
  exact ⟨_, url, hnormal, parts, hparts, (host, port), hchecked, resolved, hresolved, (), hfound, (),
    List.all_eq_true.mpr hpublic, destination, hshown, rfl⟩

theorem evaluate_eq_ok {validated validated' : ValidatedAddresses} {decisions : List PolicyDecision}
    (h : p.evaluate validated addresses target previousUrl = .ok (url, decisions, validated')) :
    normalizeUrl p.codecs target = some url ∧ ∃ parts host port,
      urlsplit p.codecs.toTables url.toList = some parts ∧ p.checkDestination parts previousUrl = .ok (host, port) ∧
        addresses host port ≠ [] ∧ ∀ address ∈ addresses host port, p.isPublicAddress address = true := by
  simp only [evaluate, bind_eq_ok, require_eq_ok, ofOption_eq_ok, resolve_eq_ok] at h
  obtain ⟨normalized, hnormalized, parts, hparts, ⟨host, port⟩, hcheck, _, ⟨-, rfl⟩, -, hresolved, -, hpublic, _, -, hreturn⟩ := h
  cases hreturn
  refine ⟨hnormalized, parts, host, port, hparts, hcheck, ?_, by simpa using hpublic⟩
  rintro hnone
  simp [hnone] at hresolved

/-- The URL `evaluate` returns is the normal form of the target. -/
theorem Accepts.normalized (h : p.Accepts addresses target previousUrl url) : normalizeUrl p.codecs target = some url := by
  obtain ⟨_, _, _, h⟩ := h
  exact (evaluate_eq_ok h).1

theorem Accepts.admits (h : p.Accepts addresses target previousUrl url) : p.Admits addresses url := by
  obtain ⟨_, _, _, h⟩ := h
  obtain ⟨hnormalized, parts, host, port, hparts, hcheck, hresolved, hpublic⟩ := evaluate_eq_ok h
  obtain ⟨-, rfl, hblocked, hlocal, hallowed, written, hwritten, hport⟩ := checkDestination_eq_ok hcheck
  exact ⟨parts, written, port, hparts, scheme_of_normalized hnormalized hparts, hwritten, hport, hblocked, hlocal,
    hallowed, hresolved, hpublic⟩

/-- Whatever the path, a URL at the scheme and authority of an admitted one is admitted. -/
theorem Admits.site {parts : SplitResult} {site path : String} (h : p.Admits addresses url)
    (hparts : urlsplit p.codecs.toTables url.toList = some parts)
    (hsite : site = String.ofList parts.scheme ++ "://" ++ String.ofList parts.netloc ++ "/" ++ path)
    (hpath : ∀ c ∈ path.toList, (c != '\t' && c != '\r' && c != '\n') = true ∧ (c != '#') = true ∧ (c != '?') = true) :
    p.Admits addresses site := by
  obtain ⟨parts', written, port, hparts', hscheme, hwritten, hport, hrest⟩ := h
  cases hparts.symm.trans hparts'
  have hvalid : IsScheme parts.scheme := by
    rcases hscheme with hname | hname
    · exact hname ▸ isScheme_http
    · exact hname ▸ isScheme_https
  have hsplit := hvalid.urlsplit_site p.codecs.toTables hparts hpath
  have hlist : site.toList = parts.scheme ++ ':' :: '/' :: '/' :: (parts.netloc ++ '/' :: path.toList) := by
    rw [hsite]
    simp
  rw [← hlist] at hsplit
  exact ⟨_, written, port, hsplit, hscheme, hwritten, hport, hrest⟩

theorem IsHttps.nonempty {c : Codecs} (h : IsHttps c url) : (!url.isEmpty) = true := by
  obtain ⟨parts, hparts, hscheme⟩ := h
  by_contra hempty
  have hnil : url = "" := by simpa using hempty
  rw [hnil] at hparts
  have hnone : parts.scheme = [] := scheme_of_urlsplit _ hparts
  rw [hnone] at hscheme
  cases hscheme

/-- After a URL of scheme `https` comes one of scheme `https`. -/
theorem Accepts.https {previous : String} (h : p.Accepts addresses target (some previous) url)
    (hprevious : IsHttps p.codecs previous) : IsHttps p.codecs url := by
  obtain ⟨_, _, _, h⟩ := h
  obtain ⟨hnormalized, parts, host, port, hparts, hcheck, -⟩ := evaluate_eq_ok h
  obtain ⟨hdowngrade, -⟩ := checkDestination_eq_ok hcheck
  obtain ⟨before', hbefore', hno⟩ := hdowngrade previous (by simp [hprevious.nonempty])
  obtain ⟨before, hbefore, hscheme⟩ := hprevious
  cases hbefore.symm.trans hbefore'
  exact ⟨parts, hparts, (scheme_of_normalized hnormalized hparts).resolve_left fun hhttp => hno ⟨hscheme, hhttp⟩⟩

/-- The normal form of a normalised URL keeps its scheme. -/
theorem Accepts.keeps_https {original : String} (h : p.Accepts addresses target previousUrl url)
    (hnormalized : normalizeUrl p.codecs original = some target) (htarget : IsHttps p.codecs target) :
    IsHttps p.codecs url := by
  obtain ⟨parts, hparts, hscheme⟩ := htarget
  obtain ⟨name, rest, hname, hshape⟩ := normalizeUrl_eq_some hnormalized
  have hvalid : IsScheme name := by
    rcases hname with rfl | rfl
    · exact isScheme_http
    · exact isScheme_https
  rw [hshape] at hparts
  have hhttps : name = "https".toList := (hvalid.urlsplit_scheme _ hparts).symm.trans hscheme
  -- the scheme of the target is what its normal form begins with
  obtain ⟨parts', rest', hparts', -, hshape'⟩ := normalizeUrl_shape h.normalized
  obtain ⟨tail, hstrip⟩ := hvalid.strip_eq rest
  rw [hshape, hstrip] at hparts'
  rw [hvalid.urlsplit_scheme _ hparts', p.codecs.lower_ascii _ hvalid.isAscii, hvalid.lower, hhttps] at hshape'
  obtain ⟨final, -, -, hfinal, -⟩ := h.admits
  rw [hshape'] at hfinal
  refine ⟨final, ?_, isScheme_https.urlsplit_scheme _ hfinal⟩
  rw [hshape']
  exact hfinal

end

end SafeUrlPolicy

end Fetech
