import Fetech.Security.PublicUrl

/-! Candidates for another address of a page (`fetech/variants.py` and the start of
`VariantAdapter.execute` in `fetech/adapters/variants.py`).

From the normal form of a target a map is made with one candidate, or none, for each variant
capability. `none` is the `ValueError` of taking a URL apart. -/
namespace Fetech.Variants
open Lib.Url

/-! ### The query -/

/-- `TRACKING_KEYS`. -/
def trackingKeys : List String := ["fbclid", "gclid", "mc_cid", "mc_eid"]

/-- `TRACKING_PREFIXES`. -/
def trackingPrefixes : List String := ["utm_"]

def isTracking (c : Codecs) (key : List Char) : Bool :=
  trackingKeys.contains (String.ofList (c.lower key)) || trackingPrefixes.any fun name => name.toList.isPrefixOf (c.lower key)

/-- `clean_query_parameters`. -/
def cleanQueryParameters (c : Codecs) (url : String) : Option String := do
  let parts ← urlsplit c.toTables url.toList
  let query := urlencode ((parseQslKeeping parts.query).filter fun pair => !isTracking c pair.1)
  return String.ofList (urlunsplit {parts with query, fragment := []})

/-! ### Candidates -/

/-- `s.removeprefix(prefix)`. -/
def removePrefix (start s : List Char) : List Char := if start.isPrefixOf s then s.drop start.length else s

def isAlnum (ch : Char) : Bool := isAlpha ch || isDigit ch

/-- `_LANGUAGE.fullmatch`: two to eight letters, then groups of up to eight letters and digits
behind hyphens. -/
def isLanguage (language : List Char) : Bool :=
  match language.splitOn '-' with
  | [] => false
  | first :: groups =>
    first.all isAlpha && 2 ≤ first.length && first.length ≤ 8 &&
      groups.all fun group => group.all isAlnum && 1 ≤ group.length && group.length ≤ 8

/-- `_safe_optional_url`. -/
def safeOptionalUrl (c : Codecs) (candidate : Option String) : Option String :=
  match candidate.filter (!·.isEmpty) with
  | none => none
  | some candidate => normalizeUrl c candidate

/-- `urlunsplit` of a URL without a fragment. -/
def unsplit (scheme netloc path query : List Char) : String :=
  String.ofList (urlunsplit {scheme, netloc, path, query, fragment := []})

/-- The candidates before downgrades are taken out. `written` is the port of the original. -/
def candidates (c : Codecs) (original clean : String) (parts : SplitResult) (written : Option Nat)
    (language region canonicalUrl : Option String) : List (String × Option String) :=
  let host := parts.hostname c.toTables
  -- A port of 0 is left out.
  let port := withPort (written.filter (· ≠ 0))
  let withoutWww := removePrefix "www.".toList host
  let bare := rstrip '/' parts.path
  let pathWithoutSlash := if bare.isEmpty then ['/'] else bare
  let languagePath := (language.filter fun language => isLanguage language.toList).map fun language =>
    '/' :: c.lower language.toList ++ (if parts.path.head? = some '/' then parts.path else '/' :: parts.path)
  let query := parseQslKeeping parts.query
  let regionQuery := (region.filter (!·.isEmpty)).map fun region =>
    urlencode (query ++ [("region".toList, region.toList)])
  let endsWithSlash := parts.path.getLast? = some '/'
  [("http_to_https",
      if parts.scheme = "http".toList then some (unsplit "https".toList parts.netloc parts.path parts.query) else none),
    ("https_to_http", none),
    ("www_to_non_www",
      if "www.".toList.isPrefixOf host then some (unsplit parts.scheme (withoutWww ++ port) parts.path parts.query)
      else none),
    ("non_www_to_www",
      if !host.isEmpty && !"www.".toList.isPrefixOf host then
        some (unsplit parts.scheme ("www.".toList ++ host ++ port) parts.path parts.query)
      else none),
    ("trailing_slash",
      if !endsWithSlash then some (unsplit parts.scheme parts.netloc (parts.path ++ ['/']) parts.query) else none),
    ("remove_trailing_slash",
      if endsWithSlash ∧ parts.path ≠ ['/'] then some (unsplit parts.scheme parts.netloc pathWithoutSlash parts.query)
      else none),
    ("clean_query_parameters", if clean ≠ original then some clean else none),
    ("canonical_url_variant", safeOptionalUrl c canonicalUrl),
    ("mobile_variant",
      if !host.isEmpty && !"m.".toList.isPrefixOf host then
        some (unsplit parts.scheme ("m.".toList ++ withoutWww ++ port) parts.path parts.query)
      else none),
    ("amp_variant",
      if !"/amp".toList.isSuffixOf bare then some (unsplit parts.scheme parts.netloc (bare ++ "/amp".toList) parts.query)
      else none),
    ("print_variant",
      some (unsplit parts.scheme parts.netloc parts.path (urlencode (query ++ [("output".toList, ['1'])])))),
    ("language_variant", languagePath.map fun path => unsplit parts.scheme parts.netloc path parts.query),
    ("region_variant", regionQuery.map fun query => unsplit parts.scheme parts.netloc parts.path query)]

/-- `_downgrades`: the candidate is taken apart only beside an `https` original. -/
def downgrades (c : Codecs) (original candidate : String) : Option Bool := do
  let before ← urlsplit c.toTables original.toList
  if before.scheme = "https".toList then
    let after ← urlsplit c.toTables candidate.toList
    return after.scheme = "http".toList
  else return false

/-- A candidate, unless it is a downgrade. -/
def keepCandidate (c : Codecs) (original : String) (entry : String × Option String) : Option (String × Option String) :=
  match entry.2 with
  | none => some entry
  | some candidate => (downgrades c original candidate).map fun down => (entry.1, if down then none else some candidate)

/-- `generate_variant_map`. -/
def generateVariantMap (c : Codecs) (url : String) (language region canonicalUrl : Option String) :
    Option (List (String × Option String)) := do
  let original ← normalizeUrl c url
  let parts ← urlsplit c.toTables original.toList
  let written ← parts.port
  let clean ← cleanQueryParameters c original
  (candidates c original clean parts written language region canonicalUrl).mapM (keepCandidate c original)

/-- `generate_variants`: the original and its candidates, each once. -/
def generateVariants (c : Codecs) (url : String) (language region canonicalUrl : Option String) : Option (List String) := do
  let original ← normalizeUrl c url
  let map ← generateVariantMap c original language region canonicalUrl
  let kept ← (original :: map.filterMap Prod.snd).filterM fun candidate => (downgrades c original candidate).map (!·)
  return kept.eraseDups

/-- The map as `VariantAdapter.execute` stores it: every candidate shown without its secrets. -/
def expandCandidates (c : Codecs) (request : FetchRequest) (region canonicalUrl : Option String) :
    Option (List (String × Option String)) := do
  let map ← generateVariantMap c request.target request.language region canonicalUrl
  map.mapM fun entry =>
    match entry.2 with
    | none => some (entry.1, none)
    | some candidate => (sanitizeUrlForRequest c candidate request).map fun shown => (entry.1, some shown)

end Fetech.Variants
