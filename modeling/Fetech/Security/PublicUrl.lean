import Fetech.Documents
import Fetech.Lib.QueryRoundtrip
import Fetech.Security.NormalForm

/-! When a normalised URL is shown as it is (`fetech/security.py`, `sanitize_url`).

The connectors to caches and archives, the variant adapter and the remote reader refuse a
target that `sanitize_url` changes, taking it to carry a secret, and public plans, resources
and reports show what `sanitize_url` returns. But it also reads the query and writes it again:
a key without a value, another spelling of an escape, or a port 0 does not come back. -/
namespace Fetech
open Lib.Url

/-- A key from `SENSITIVE_QUERY_KEYS`. -/
def isSensitiveKey (c : Codecs) (key : List Char) : Bool := sensitiveQueryKeys.contains (String.ofList (c.lower key))

/-- The query has a sensitive key, with a value or without. -/
def hasSensitiveKey (c : Codecs) (query : List Char) : Bool :=
  (parseQslKeeping query).any fun pair => isSensitiveKey c pair.1

/-- `sanitize_url_for_request`. -/
def sanitizeUrlForRequest (c : Codecs) (url : String) (request : FetchRequest) : Option String :=
  sanitizeUrl c (sanitizeQuery c) url request.authenticationRef.isSome

/-- `sanitize_url(target) != target`, by which a target is refused as one that carries a secret. -/
def carriesSecret (c : Codecs) (target : String) : Option Bool :=
  (sanitizeUrl c (sanitizeQuery c) target).map (· != target)

/-- A URL is shown as what it is: the test for a secret is true exactly if its query has a
sensitive key, and without one a public request stores it unchanged. -/
def ShownFaithfully (c : Codecs) (url : String) : Prop :=
  ∃ parts, urlsplit c.toTables url.toList = some parts ∧ carriesSecret c url = some (hasSensitiveKey c parts.query) ∧
    (hasSensitiveKey c parts.query = false →
      ∀ request : FetchRequest, request.authenticationRef = none → sanitizeUrlForRequest c url request = some url)

/-! ### The query -/

/-- A pair as it is shown. -/
def shownPair (c : Codecs) (pair : List Char × List Char) : List Char × List Char :=
  (pair.1, if isSensitiveKey c pair.1 then redacted.toList else pair.2)

/-- A query that is shown as it is: written as `urlencode` writes, its sensitive values hidden
already. -/
def Presentable (c : Codecs) (query : List Char) : Prop :=
  ∃ pairs, (∀ pair ∈ pairs, pair.2 ≠ [] ∧ (isSensitiveKey c pair.1 = true → pair.2 = redacted.toList)) ∧
    query = urlencode pairs

variable {c : Codecs} {query : List Char}

theorem sanitizeQuery_eq (query : List Char) :
    sanitizeQuery c false query = urlencode ((parseQsl query).map (shownPair c)) := rfl

theorem shownPair_ne_nil {pair : List Char × List Char} (h : pair.2 ≠ []) : (shownPair c pair).2 ≠ [] := by
  unfold shownPair
  dsimp only
  split
  · decide
  · exact h

/-- **A query is shown as it is exactly if it is presentable.** -/
theorem sanitizeQuery_eq_self_iff : sanitizeQuery c false query = query ↔ Presentable c query := by
  rw [sanitizeQuery_eq]
  constructor
  · intro h
    refine ⟨(parseQsl query).map (shownPair c), fun pair hpair => ?_, h.symm⟩
    obtain ⟨pair, hmem, rfl⟩ := List.mem_map.mp hpair
    refine ⟨shownPair_ne_nil (parseQsl_ne_nil query pair hmem), fun hkey => ?_⟩
    exact if_pos hkey
  · rintro ⟨pairs, hpairs, rfl⟩
    rw [parseQsl_urlencode fun pair hpair => (hpairs pair hpair).1]
    refine congrArg urlencode ((List.map_congr_left fun pair hpair => ?_).trans (List.map_id _))
    unfold shownPair
    split
    · rename_i hkey
      exact Prod.ext rfl ((hpairs pair hpair).2 hkey).symm
    · rfl

/-- What is shown of a query is presentable. -/
theorem presentable_sanitizeQuery (redactQuery : Bool) (query : List Char) :
    Presentable c (sanitizeQuery c redactQuery query) := by
  refine ⟨_, fun pair hpair => ?_, rfl⟩
  obtain ⟨read, hread, rfl⟩ := List.mem_map.mp hpair
  have hhidden : isSensitiveKey c read.1 = true →
      (redactQuery || sensitiveQueryKeys.contains (String.ofList (c.lower read.1))) = true := fun hkey =>
    Bool.or_eq_true_iff.mpr (.inr hkey)
  refine ⟨?_, fun hkey => if_pos (hhidden hkey)⟩
  dsimp only
  split
  · decide
  · exact parseQsl_ne_nil query read hread

/-- Without sensitive keys a query is presentable if it is written as `urlencode` writes. -/
theorem presentable_iff_written (h : hasSensitiveKey c query = false) : Presentable c query ↔ Written query := by
  constructor
  · rintro ⟨pairs, hpairs, hquery⟩
    exact ⟨pairs, fun pair hpair => (hpairs pair hpair).1, hquery⟩
  · rintro ⟨pairs, hpairs, rfl⟩
    refine ⟨pairs, fun pair hpair => ⟨hpairs pair hpair, fun hkey => ?_⟩, rfl⟩
    rw [hasSensitiveKey, parseQslKeeping_urlencode, List.any_eq_false] at h
    exact absurd hkey (h pair hpair)

/-! ### The authority -/

/-- An authority that is shown as it is: in brackets only around an address, and without a
port 0. -/
structure AuthorityShown (t : Tables) (parts : SplitResult) : Prop where
  brackets : '[' ∈ parts.netloc → ':' ∈ parts.hostname t
  port : parts.port ≠ some (some 0)

/-- The authority `sanitize_url` shows. -/
def shownAuthority (t : Tables) (parts : SplitResult) (written : Option Nat) : List Char :=
  bracketed (parts.hostname t) ++ withPort (written.filter (· ≠ 0))

theorem sanitizeUrl_eq {url : String} {parts : SplitResult} {written : Option Nat} {redactQuery : Bool}
    (hparts : urlsplit c.toTables url.toList = some parts) (hwritten : parts.port = some written) :
    sanitizeUrl c (sanitizeQuery c) url redactQuery = some (String.ofList (urlunsplit {parts with
      netloc := shownAuthority c.toTables parts written, query := sanitizeQuery c redactQuery parts.query
      fragment := []})) := by
  simp only [sanitizeUrl, hparts, hwritten, Option.bind_eq_bind, Option.bind_some, Option.pure_def, shownAuthority]
  cases written.filter (· ≠ 0) with
  | none => exact congrArg (fun netloc => some (String.ofList (urlunsplit {parts with
      netloc, query := sanitizeQuery c redactQuery parts.query, fragment := []}))) (List.append_nil _).symm
  | some n => rfl

theorem withPort_filter_iff {written : Option Nat} :
    withPort (written.filter (· ≠ 0)) = withPort written ↔ written ≠ some 0 := by
  cases written with
  | none => simp [withPort]
  | some n =>
    by_cases hn : n = 0
    · simp [withPort, Option.filter, hn]
    · simp [Option.filter, hn]

namespace ReadAs
variable {target : String} {parts : SplitResult} {encoded : List Char} {port : Option Nat}

/-- The authority of a normal form is shown as it is exactly if its brackets and its port are
as `AuthorityShown` has them. -/
theorem shownAuthority_iff (hc : c.Idna) (h : ReadAs c target parts encoded port) {written : Option Nat}
    (hok : bracketsOk c.toTables (normalForm c parts encoded port).netloc = true)
    (hwritten : (normalForm c parts encoded port).port = some written) :
    shownAuthority c.toTables (normalForm c parts encoded port) written = (normalForm c parts encoded port).netloc ↔
      AuthorityShown c.toTables (normalForm c parts encoded port) := by
  obtain hback | ⟨hcolon, hopen, hsub, hshort⟩ := readsBack_or (p := normalForm c parts encoded port)
      (h.at_notMem_host hc) rfl hok (by rw [hwritten]; exact Option.some_ne_none written)
  · obtain ⟨-, hname, hport⟩ := h.readsBack_read hc hback
    have hsame : written = shownPort parts.scheme port := Option.some.inj (hwritten.symm.trans hport)
    have hnetloc : (normalForm c parts encoded port).netloc = bracketed (canonicalHost c encoded) ++ withPort written := by
      rw [hsame]
      rfl
    rw [shownAuthority, hname, hnetloc, List.append_cancel_left_eq, withPort_filter_iff]
    constructor
    · intro hzero
      refine ⟨fun hbracket => ?_, ?_⟩
      · rw [hname]
        by_contra hcolon
        rw [hnetloc, bracketed_name hcolon] at hbracket
        obtain hmem | hmem := List.mem_append.mp hbracket
        · exact (hback.name hcolon).1 hmem
        · exact notMem_withPort (by decide) (by decide) hmem
      · rw [hwritten]
        exact fun heq => hzero (Option.some.inj heq)
    · intro hshown hzero
      exact hshown.port (by rw [hwritten, hzero])
  · have hname := (h.hostname_normal hc).1
    have hcolon' : ':' ∉ (normalForm c parts encoded port).hostname c.toTables := by
      rw [hname]
      exact fun hmem => hcolon (hsub hmem)
    have hnetloc : (normalForm c parts encoded port).netloc =
        canonicalHost c encoded ++ withPort (shownPort parts.scheme port) := by
      rw [← bracketed_name hcolon]
      rfl
    constructor
    · intro heq
      rw [shownAuthority, bracketed_name hcolon', hnetloc, hname] at heq
      have hequal := host_inj (fun hmem => hcolon (hsub hmem)) hcolon heq
      rw [hequal] at hshort
      exact absurd hshort (Nat.lt_irrefl _)
    · intro hshown
      refine absurd (hshown.brackets ?_) hcolon'
      rw [hnetloc]
      exact List.mem_append_left _ hopen

/-- **A normal form is shown as it is exactly if its authority is and its query is presentable.** -/
theorem sanitizeUrl_eq_self_iff (hc : c.Idna) (h : ReadAs c target parts encoded port) {written : Option Nat}
    (hok : bracketsOk c.toTables (normalForm c parts encoded port).netloc = true)
    (hwritten : (normalForm c parts encoded port).port = some written) :
    sanitizeUrl c (sanitizeQuery c) (String.ofList (urlunsplit (normalForm c parts encoded port))) =
        some (String.ofList (urlunsplit (normalForm c parts encoded port))) ↔
      AuthorityShown c.toTables (normalForm c parts encoded port) ∧ Presentable c parts.query := by
  have hrooted := h.rooted hc
  have hsplit : urlsplit c.toTables (String.ofList (urlunsplit (normalForm c parts encoded port))).toList =
      some (normalForm c parts encoded port) := by
    rw [String.toList_ofList, h.urlsplit_url hc, hok]
    rfl
  rw [sanitizeUrl_eq hsplit hwritten, ← h.shownAuthority_iff hc hok hwritten, ← sanitizeQuery_eq_self_iff]
  constructor
  · intro hsame
    have hslash : '/' ∉ shownAuthority c.toTables (normalForm c parts encoded port) written := by
      have hraw : '/' ∉ (normalForm c parts encoded port).hostname c.toTables := by
        rw [(h.hostname_normal hc).1]
        exact fun hmem => hrooted.slash_notMem (SplitResult.rawHost_subset _ hmem)
      intro hmem
      obtain hmem | hmem := List.mem_append.mp hmem
      · unfold bracketed at hmem
        split at hmem
        · simp [hraw] at hmem
        · exact hraw hmem
      · exact notMem_withPort (by decide) (by decide) hmem
    have habsolute : SplitResult.Absolute {normalForm c parts encoded port with
        netloc := shownAuthority c.toTables (normalForm c parts encoded port) written
        query := sanitizeQuery c false (normalForm c parts encoded port).query, fragment := []} :=
      ⟨hrooted.scheme, hrooted.authority, hrooted.root, rfl⟩
    obtain ⟨hnetloc, hrest⟩ := habsolute.urlunsplit_inj hrooted.toAbsolute rfl hslash hrooted.slash_notMem
      (String.ofList_injective (Option.some.inj hsame))
    exact ⟨hnetloc, withQuery_inj (List.append_cancel_left hrest)⟩
  · rintro ⟨hnetloc, hquery⟩
    have hquery' : sanitizeQuery c false (normalForm c parts encoded port).query = (normalForm c parts encoded port).query :=
      hquery
    rw [hnetloc, hquery']
    rfl

/-- What the test for a secret answers on a normal form that can be read. -/
theorem carriesSecret_eq (hc : c.Idna) (h : ReadAs c target parts encoded port) {written : Option Nat}
    (hok : bracketsOk c.toTables (normalForm c parts encoded port).netloc = true)
    (hwritten : (normalForm c parts encoded port).port = some written) :
    ∃ differs, carriesSecret c (String.ofList (urlunsplit (normalForm c parts encoded port))) = some differs ∧
      (differs = false ↔ AuthorityShown c.toTables (normalForm c parts encoded port) ∧ Presentable c parts.query) := by
  rw [← h.sanitizeUrl_eq_self_iff hc hok hwritten, carriesSecret]
  have hsplit : urlsplit c.toTables (String.ofList (urlunsplit (normalForm c parts encoded port))).toList =
      some (normalForm c parts encoded port) := by
    rw [String.toList_ofList, h.urlsplit_url hc, hok]
    rfl
  rw [sanitizeUrl_eq hsplit hwritten]
  refine ⟨_, rfl, ?_⟩
  rw [bne_eq_false_iff_eq, Option.some.injEq]

end ReadAs

/-! ### Where a URL is shown as it is -/

/-- A URL that can be taken apart and is public as it stands, or secret and not yet shown: without
a sensitive key its authority is shown as it is and its query is written as `urlencode` writes
one, every key with a value; with one, not all of that holds with every sensitive value hidden
already. -/
def ShownAsIs (c : Codecs) (url : String) : Prop :=
  ∃ parts, urlsplit c.toTables url.toList = some parts ∧ parts.port ≠ none ∧
    (hasSensitiveKey c parts.query = false → AuthorityShown c.toTables parts ∧ Written parts.query) ∧
    (hasSensitiveKey c parts.query = true → ¬(AuthorityShown c.toTables parts ∧ Presentable c parts.query))

/-- **`sanitize_url` tells secret URLs from public ones exactly where these are shown as they
are**: for every URL that is the normal form of a target, the test by which connectors refuse a
secret agrees with the keys of its query, and public URLs are stored unchanged, if and only if
the URL can be read, its authority comes back, and the pairs of its query are spelt and valued as
`urlencode` writes them. -/
theorem shown_faithfully_iff (c : Codecs) (hc : c.Idna) (target url : String) (hurl : normalizeUrl c target = some url) :
    ShownFaithfully c url ↔ ShownAsIs c url := by
  obtain ⟨read, encoded, port, hread, rfl⟩ := normalizeUrl_iff.mp hurl
  have hreads : ∀ parts, urlsplit c.toTables (String.ofList (urlunsplit (normalForm c read encoded port))).toList =
      some parts → bracketsOk c.toTables (normalForm c read encoded port).netloc = true ∧
        normalForm c read encoded port = parts := by
    intro parts hparts
    rw [String.toList_ofList, hread.urlsplit_url hc, Option.ite_none_right_eq_some] at hparts
    exact ⟨hparts.1, Option.some.inj hparts.2⟩
  constructor
  · rintro ⟨parts, hparts, htest, -⟩
    obtain ⟨hok, rfl⟩ := hreads parts hparts
    have hport : (normalForm c read encoded port).port ≠ none := by
      intro hnone
      have hunread : sanitizeUrl c (sanitizeQuery c) (String.ofList (urlunsplit (normalForm c read encoded port))) = none := by
        rw [← Option.not_isSome_iff_eq_none, sanitizeUrl_isSome]
        rintro ⟨parts', written, hparts', hwritten⟩
        cases hparts.symm.trans hparts'
        cases hnone.symm.trans hwritten
      rw [carriesSecret, hunread] at htest
      cases htest
    obtain ⟨written, hwritten⟩ := Option.ne_none_iff_exists'.mp hport
    obtain ⟨differs, hdiffers, hsame⟩ := hread.carriesSecret_eq hc hok hwritten
    have hkey := Option.some.inj (hdiffers.symm.trans htest)
    rw [hkey] at hsame
    refine ⟨_, hparts, hport, fun hplain => ?_, fun hsecret hshown => ?_⟩
    · obtain ⟨hauthority, hquery⟩ := hsame.mp hplain
      exact ⟨hauthority, (presentable_iff_written hplain).mp hquery⟩
    · have hplain := hsame.mpr hshown
      rw [hsecret] at hplain
      cases hplain
  · rintro ⟨parts, hparts, hport, hpublic, hsecret⟩
    obtain ⟨hok, rfl⟩ := hreads parts hparts
    obtain ⟨written, hwritten⟩ := Option.ne_none_iff_exists'.mp hport
    obtain ⟨differs, hdiffers, hsame⟩ := hread.carriesSecret_eq hc hok hwritten
    have hshown : hasSensitiveKey c (normalForm c read encoded port).query = false →
        AuthorityShown c.toTables (normalForm c read encoded port) ∧ Presentable c read.query := fun hplain =>
      ⟨(hpublic hplain).1, (presentable_iff_written hplain).mpr (hpublic hplain).2⟩
    refine ⟨_, hparts, ?_, fun hplain request hrequest => ?_⟩
    · rw [hdiffers]
      refine congrArg some ?_
      cases hkey : hasSensitiveKey c (normalForm c read encoded port).query with
      | false => exact hsame.mpr (hshown hkey)
      | true =>
        rw [← Bool.not_eq_false]
        exact fun hno => hsecret hkey (hsame.mp hno)
    · rw [sanitizeUrlForRequest, hrequest]
      exact (hread.sanitizeUrl_eq_self_iff hc hok hwritten).mpr (hshown hplain)

theorem shown_faithfully_iff_search : ShownFaithfully plainCodecs "http://example.org/find?q=a+b&page=2" := by
  have hurl : normalizeUrl plainCodecs "http://example.org/find?q=a+b&page=2" =
      some "http://example.org/find?q=a+b&page=2" := by decide +kernel
  have hsplit : urlsplit plainCodecs.toTables "http://example.org/find?q=a+b&page=2".toList =
      some ⟨"http".toList, "example.org".toList, "/find".toList, "q=a+b&page=2".toList, []⟩ := by decide +kernel
  have hplain : hasSensitiveKey plainCodecs "q=a+b&page=2".toList = false := by decide +kernel
  refine (shown_faithfully_iff plainCodecs plainCodecs_idna _ _ hurl).mpr
    ⟨_, hsplit, by decide +kernel, fun _ => ⟨⟨fun hopen => ?_, by decide +kernel⟩, ?_⟩, fun hsecret => ?_⟩
  · exact absurd hopen (by decide +kernel)
  · refine ⟨[("q".toList, "a b".toList), ("page".toList, "2".toList)], by decide +kernel, by decide +kernel⟩
  · rw [hplain] at hsecret
    cases hsecret

/-- **A key without a value** is dropped from what is shown, and the public URL taken to carry
a secret. -/
theorem blank_value_taken_for_secret : normalizeUrl plainCodecs "http://example.org/?flag" = some "http://example.org/?flag" ∧
    hasSensitiveKey plainCodecs "flag".toList = false ∧
    carriesSecret plainCodecs "http://example.org/?flag" = some true ∧
    ¬ShownFaithfully plainCodecs "http://example.org/?flag" := by
  have hplain : hasSensitiveKey plainCodecs "flag".toList = false := by decide +kernel
  have hsecret : carriesSecret plainCodecs "http://example.org/?flag" = some true := by decide +kernel
  have hsplit : urlsplit plainCodecs.toTables "http://example.org/?flag".toList =
      some ⟨"http".toList, "example.org".toList, ['/'], "flag".toList, []⟩ := by decide +kernel
  refine ⟨by decide +kernel, hplain, hsecret, ?_⟩
  rintro ⟨parts, hparts, htest, -⟩
  cases hparts.symm.trans hsplit
  rw [hsecret, hplain] at htest
  cases htest

end Fetech
