import Fetech.Variants
import Fetech.Security.Stability
import Fetech.Lib.Except
import Fetech.Lib.Lists

/-! Whether the candidates for another address are targets themselves (`fetech/variants.py` and
the start of `VariantAdapter.execute` in `fetech/adapters/variants.py`).

A candidate that keeps the authority of its target is accepted where the target's own normal
form is. The candidates under another host are put together without brackets: an IPv6 literal
loses them, what follows its first colon is read as a port, and neither `normalize_url` nor
`sanitize_url` accepts what comes out. -/
namespace Fetech.Variants
open Lib.Url

/-! ### Labels -/

/-- A label in front of a name that is measured. -/
theorem labelsOk_cons {label : List Char} (hdot : '.' ∉ label) (hlabel : label ≠ []) (hshort : label.length < 64)
    (rest : List Char) : labelsOk (label ++ '.' :: rest) = labelsOk rest := by
  have hnonempty : rest.splitOn '.' ≠ [] := List.splitOn_ne_nil _ _
  rw [labelsOk, List.splitOn_append_cons_self_of_not_mem hdot, List.dropLast_cons_of_ne_nil hnonempty, List.all_cons,
    List.all_cons, labelsOk, List.isEmpty_eq_false_iff.mpr hlabel, decide_eq_true hshort]
  rfl

theorem labelsOk_www (rest : List Char) : labelsOk ("www.".toList ++ rest) = labelsOk rest :=
  @labelsOk_cons "www".toList (by decide) (by decide) (by decide) rest

theorem labelsOk_mobile (rest : List Char) : labelsOk ("m.".toList ++ rest) = labelsOk rest :=
  @labelsOk_cons "m".toList (by decide) (by decide) (by decide) rest

/-! ### URLs of the web -/

/-- A character of an authority in its one spelling. -/
def usable (ch : Char) : Bool := !splitsUrl ch && ch.val < 128 && ch.toLower == ch

/-- The parts of a URL of the web in its one spelling, but for the brackets of its authority. -/
structure Web (q : SplitResult) : Prop extends q.Clean, q.Absolute where
  web : q.scheme = "http".toList ∨ q.scheme = "https".toList
  site : ∀ ch ∈ q.netloc, usable ch = true

/-- The text behind a colon is a port. -/
def isPort (s : List Char) : Bool := s.isEmpty || (s.all isDigit && SplitResult.digits s ≤ 65535)

theorem port_ne_none_iff {q : SplitResult} : q.port ≠ none ↔ isPort q.rawPort = true := by
  unfold SplitResult.port isPort
  split
  · simp [*]
  · split
    · simp [*]
    · simp [*]

/-- An authority that is read: brackets, host and port. -/
structure Readable (t : Tables) (q : SplitResult) : Prop where
  brackets : bracketsOk t q.netloc = true
  host : q.rawHost ≠ []
  labels : labelsOk q.rawHost = true
  port : isPort q.rawPort = true

/-- Only the authority matters. -/
theorem Readable.of_netloc {t : Tables} {q q' : SplitResult} (h : Readable t q) (hsame : q'.netloc = q.netloc) :
    Readable t q' := by
  have hhost : q'.rawHost = q.rawHost := by rw [SplitResult.rawHost, hsame, SplitResult.rawHost]
  have hport : q'.rawPort = q.rawPort := by rw [SplitResult.rawPort, hsame, SplitResult.rawPort]
  exact ⟨hsame ▸ h.brackets, hhost ▸ h.host, hhost ▸ h.labels, hport ▸ h.port⟩

namespace Web
variable {q : SplitResult} (h : Web q)
include h

theorem isAscii_netloc : isAscii q.netloc = true := by
  refine List.all_eq_true.mpr fun ch hch => ?_
  have husable := h.site ch hch
  simp only [usable, Bool.and_eq_true] at husable
  exact husable.1.2

theorem asciiLower_netloc : asciiLower q.netloc = q.netloc := by
  refine (List.map_congr_left fun ch hch => ?_).trans (List.map_id _)
  have husable := h.site ch hch
  simp only [usable, Bool.and_eq_true, beq_iff_eq] at husable
  exact husable.2

theorem unsplit_netloc : ∀ ch ∈ q.netloc, splitsUrl ch = false := by
  intro ch hch
  have husable := h.site ch hch
  simp only [usable, Bool.and_eq_true, Bool.not_eq_true'] at husable
  exact husable.1.1

theorem at_notMem : '@' ∉ q.netloc := fun hmem => absurd (h.unsplit_netloc _ hmem) (by decide)

theorem rooted : q.Rooted where
  toClean := h.toClean
  toAbsolute := h.toAbsolute
  netloc ch hch := by
    have hno := h.unsplit_netloc ch hch
    simp only [splitsUrl, Bool.or_eq_false_iff, Bool.not_eq_false'] at hno
    exact ⟨hno.1.1, hno.2⟩

theorem isScheme : IsScheme q.scheme := h.scheme

theorem urlsplit_eq (t : Tables) : urlsplit t (urlunsplit q) = if bracketsOk t q.netloc then some q else none := by
  have hascii : netlocOk t q.netloc = true := by rw [netlocOk, h.isAscii_netloc, Bool.true_or]
  rw [h.rooted.urlsplit_urlunsplit, hascii, Bool.and_true]

/-- White space goes from the end of path and query. -/
theorem urlsplit_strip (t : Tables) : urlsplit t (strip (urlunsplit q)) =
    if bracketsOk t q.netloc then
      some (splitRest q.scheme q.netloc ((q.path ++ withQuery q.query).rdropWhile isSpace))
    else none := by
  have hhead := head_rdropWhile h.toAbsolute.head_rest (p := isSpace) (by decide)
  have hpart := List.rdropWhile_prefix isSpace (q.path ++ withQuery q.query)
  have hascii : netlocOk t q.netloc = true := by rw [netlocOk, h.isAscii_netloc, Bool.true_or]
  rw [h.toAbsolute.urlunsplit_eq, h.isScheme.strip_rest _ h.toAbsolute.head_rest,
    h.isScheme.urlsplit_rest _ h.rooted.netloc (fun ch hch => h.rooted.kept ch (hpart.subset hch)), hascii, Bool.and_true]
  intro ch hch
  rw [hhead] at hch
  cases hch
  rfl

theorem hostname_eq (t : Tables) : q.hostname t = q.rawHost :=
  hostname_ascii t (isAscii_mono h.isAscii_netloc q.rawHost_subset) (asciiLower_eq_self h.asciiLower_netloc q.rawHost_subset)

theorem userinfo : q.hasUserinfo = false := by
  rw [SplitResult.hasUserinfo, (afterLast_of_notMem h.at_notMem).2]
  rfl

/-- **Such a URL is accepted exactly if its authority is read.** -/
theorem accepted_iff {c : Codecs} (hc : c.Idna) :
    (normalizeUrl c (String.ofList (urlunsplit q))).isSome = true ↔ Readable c.toTables q := by
  have hsplit := h.urlsplit_strip c.toTables
  have hidna : c.idna q.rawHost = if labelsOk q.rawHost then some q.rawHost else none :=
    hc.ofAscii (isAscii_mono h.isAscii_netloc q.rawHost_subset)
  -- Host and port are those of the authority, whatever path and query become.
  have hread : ∀ parts : SplitResult, parts.netloc = q.netloc → parts.rawPort = q.rawPort ∧ parts.hasUserinfo = false ∧
      parts.hostname c.toTables = q.rawHost := by
    intro parts hsame
    have hhost : parts.hostname c.toTables = q.hostname c.toTables := by
      rw [SplitResult.hostname, SplitResult.rawHost, hsame, SplitResult.hostname, SplitResult.rawHost]
    have hinfo : parts.hasUserinfo = q.hasUserinfo := by rw [SplitResult.hasUserinfo, hsame, SplitResult.hasUserinfo]
    have hport : parts.rawPort = q.rawPort := by rw [SplitResult.rawPort, hsame, SplitResult.rawPort]
    exact ⟨hport, hinfo.trans h.userinfo, hhost.trans (h.hostname_eq _)⟩
  rw [Option.isSome_iff_exists]
  constructor
  · rintro ⟨url, hurl⟩
    obtain ⟨parts, encoded, port, hparts, -⟩ := normalizeUrl_iff.mp hurl
    have hagain := hparts.split
    rw [String.toList_ofList, hsplit, Option.ite_none_right_eq_some, Option.some.injEq] at hagain
    obtain ⟨hok, hrest⟩ := hagain
    obtain ⟨hport, -, hhost⟩ := hread parts (by rw [← hrest]; rfl)
    have hnamed := hparts.idna
    rw [hhost, hidna, Option.ite_none_right_eq_some] at hnamed
    refine ⟨hok, hhost ▸ hparts.hostname, hnamed.1, ?_⟩
    rw [← hport, ← port_ne_none_iff, hparts.port]
    exact Option.some_ne_none port
  · intro hreadable
    rw [hreadable.brackets] at hsplit
    have hsame : (splitRest q.scheme q.netloc ((q.path ++ withQuery q.query).rdropWhile isSpace)).netloc = q.netloc := rfl
    have hscheme : (splitRest q.scheme q.netloc ((q.path ++ withQuery q.query).rdropWhile isSpace)).scheme = q.scheme := rfl
    generalize splitRest q.scheme q.netloc ((q.path ++ withQuery q.query).rdropWhile isSpace) = parts at hsplit hsame hscheme
    obtain ⟨hport, hinfo, hhost⟩ := hread parts hsame
    have hnumber : isPort parts.rawPort = true := hport ▸ hreadable.port
    obtain ⟨port, hport⟩ := Option.ne_none_iff_exists'.mp (port_ne_none_iff.mpr hnumber)
    refine ⟨_, normalizeUrl_iff.mpr ⟨parts, q.rawHost, port, ⟨?_, hscheme ▸ h.web, hinfo, ?_, ?_, hport⟩, rfl⟩⟩
    · rw [String.toList_ofList, hsplit]
      rfl
    · rw [hhost]
      exact hreadable.host
    · rw [hhost, hidna, hreadable.labels]
      rfl

/-- It can be shown, too. -/
theorem shown {c : Codecs} (hreadable : Readable c.toTables q) (request : FetchRequest) :
    (sanitizeUrlForRequest c (String.ofList (urlunsplit q)) request).isSome = true := by
  obtain ⟨port, hport⟩ := Option.ne_none_iff_exists'.mp (port_ne_none_iff.mpr hreadable.port)
  refine sanitizeUrl_isSome.mpr ⟨q, port, ?_, hport⟩
  rw [String.toList_ofList, h.urlsplit_eq, hreadable.brackets]
  rfl

end Web

/-- A normal form is a URL of the web. -/
theorem web_normalForm {c : Codecs} (hc : c.Idna) {target : String} {parts : SplitResult} {encoded : List Char}
    {port : Option Nat} (h : ReadAs c target parts encoded port) : Web (normalForm c parts encoded port) where
  toClean := (h.rooted hc).toClean
  toAbsolute := (h.rooted hc).toAbsolute
  web := h.scheme
  site ch hch := by
    obtain ⟨hascii, hlower⟩ := h.netloc_lower hc
    obtain ⟨hend, hkept⟩ := h.netloc_unsplit hc ch hch
    have hat : (ch == '@') = false := by
      rw [beq_eq_false_iff_ne]
      rintro rfl
      exact h.at_notMem_normal hc hch
    have hsmall : decide (ch.val < 128) = true := List.all_eq_true.mp hascii ch hch
    have hsame : ch.toLower = ch := List.map_inj_left.mp (hlower.trans (List.map_id _).symm) ch hch
    simp only [usable, splitsUrl, hend, hat, hkept, hsmall, hsame, beq_self_eq_true, Bool.not_true, Bool.or_self,
      Bool.not_false, Bool.and_self]

theorem web_mk {scheme netloc path query : List Char} (hweb : scheme = "http".toList ∨ scheme = "https".toList)
    (hsite : ∀ ch ∈ netloc, usable ch = true) (hroot : path.head? = some '/')
    (hpath : ∀ ch ∈ path, isKept ch = true ∧ ch ≠ '?' ∧ ch ≠ '#') (hquery : ∀ ch ∈ query, isKept ch = true ∧ ch ≠ '#') :
    Web {scheme, netloc, path, query, fragment := []} where
  path := hpath
  query := hquery
  scheme := by
    obtain rfl | rfl := hweb
    · exact isScheme_http
    · exact isScheme_https
  authority := by
    show usesNetloc.contains (String.ofList scheme) = true
    obtain rfl | rfl := hweb
    · decide
    · decide
  root := hroot
  fragment := rfl
  web := hweb
  site := hsite

/-! ### Hosts without brackets -/

/-- A host that may stand without brackets, with what follows it: what is read of it before
its first colon has labels and is not a bare `www.`, and what is read behind it is a port. -/
structure Bare (host port : List Char) : Prop where
  unbracketed : '[' ∉ host
  labels : labelsOk (before ':' host) = true
  named : before ':' host ≠ "www.".toList
  port : isPort (after ':' (host ++ port)) = true

/-- The hosts candidates stand under. -/
inductive Renamed (host : List Char) : List Char → Prop
  | plain (rest : List Char) : host = "www.".toList ++ rest → Renamed host rest
  | www : "www.".toList.isPrefixOf host = false → Renamed host ("www.".toList ++ host)
  | mobile : "m.".toList.isPrefixOf host = false → Renamed host ("m.".toList ++ removePrefix "www.".toList host)

theorem before_withPort (s : List Char) (port : Option Nat) : before ':' (s ++ withPort port) = before ':' s := by
  by_cases hcolon : ':' ∈ s
  · rw [before_append, if_pos hcolon]
  · rw [before_append, if_neg hcolon, (before_of_notMem hcolon).1]
    obtain hnone | hsome := withPort_after port
    · rw [hnone]
      exact List.append_nil _
    · rw [hsome]
      simp [before]

theorem removePrefix_append (start rest : List Char) : removePrefix start (start ++ rest) = rest := by
  rw [removePrefix, if_pos (by simp), List.drop_left]

/-- The host of an authority whose brackets are in order does not close one. -/
theorem close_notMem_rawHost {t : Tables} {q : SplitResult} (hat : '@' ∉ q.netloc) (hok : bracketsOk t q.netloc = true) :
    ']' ∉ q.rawHost := by
  rw [SplitResult.rawHost, (afterLast_of_notMem hat).1]
  split
  · exact notMem_before _ _
  · rename_i hopen
    intro hmem
    have hclose : q.netloc.contains ']' = true := by simpa using before_subset _ _ hmem
    rw [Bool.not_eq_true] at hopen
    rw [bracketsOk, hopen, hclose] at hok
    cases hok

/-- **How an authority without brackets is read.** -/
theorem readable_bare {t : Tables} {q : SplitResult} {s : List Char} {port : Option Nat} (hat : '@' ∉ s) (hclose : ']' ∉ s)
    (hnetloc : q.netloc = s ++ withPort port) :
    Readable t q ↔ '[' ∉ s ∧ before ':' s ≠ [] ∧ labelsOk (before ':' s) = true ∧
      isPort (after ':' (s ++ withPort port)) = true := by
  have hport : ∀ ch, ch ≠ ':' → isDigit ch = false → ch ∉ s → ch ∉ s ++ withPort port := by
    intro ch hcolon hdigit hs hmem
    exact (List.mem_append.mp hmem).elim hs (notMem_withPort hcolon hdigit)
  have hlast : afterLast '@' q.netloc = s ++ withPort port := by
    rw [hnetloc]
    exact (afterLast_of_notMem (hport _ (by decide) (by decide) hat)).1
  have hclosed : q.netloc.contains ']' = false := by
    rw [hnetloc]
    simpa using hport _ (by decide) (by decide) hclose
  by_cases hopen : '[' ∈ s
  · have hopened : q.netloc.contains '[' = true := by
      rw [hnetloc]
      simp [hopen]
    constructor
    · intro h
      have hok := h.brackets
      rw [bracketsOk, hopened, hclosed] at hok
      cases hok
    · exact fun h => absurd hopen h.1
  · have hopened : (s ++ withPort port).contains '[' = false := by
      simpa using hport _ (by decide) (by decide) hopen
    have hhost : q.rawHost = before ':' s := by
      rw [SplitResult.rawHost, hlast, hopened, ← before_withPort s port]
      rfl
    have hnumber : q.rawPort = after ':' (s ++ withPort port) := by
      rw [SplitResult.rawPort, hlast, hopened]
      rfl
    constructor
    · exact fun h => ⟨hopen, hhost ▸ h.host, hhost ▸ h.labels, hnumber ▸ h.port⟩
    · rintro ⟨-, hne, hlabels, hread⟩
      refine ⟨?_, hhost ▸ hne, hhost ▸ hlabels, hnumber ▸ hread⟩
      rw [bracketsOk, hclosed, hnetloc, hopened]
      rfl

/-- Text without a colon in front of a host changes nothing behind its first colon. -/
theorem cut_append {start : List Char} (h : ':' ∉ start) (s : List Char) :
    before ':' (start ++ s) = start ++ before ':' s ∧ after ':' (start ++ s) = after ':' s := by
  rw [before_append, after_append, if_neg h, if_neg h]
  exact ⟨rfl, rfl⟩

theorem bare_www {rest port : List Char} : Bare ("www.".toList ++ rest) port ↔
    '[' ∉ rest ∧ before ':' rest ≠ [] ∧ labelsOk (before ':' rest) = true ∧ isPort (after ':' (rest ++ port)) = true := by
  have hcolon : ':' ∉ "www.".toList := by decide
  obtain ⟨hbefore, -⟩ := cut_append hcolon rest
  obtain ⟨-, hafter⟩ := cut_append hcolon (rest ++ port)
  have hopen : '[' ∉ "www.".toList ++ rest ↔ '[' ∉ rest := by simp
  constructor
  · rintro ⟨hunbracketed, hlabels, hnamed, hport⟩
    rw [hbefore, labelsOk_www] at hlabels
    rw [List.append_assoc, hafter] at hport
    refine ⟨hopen.mp hunbracketed, fun hnil => hnamed ?_, hlabels, hport⟩
    rw [hbefore, hnil, List.append_nil]
  · rintro ⟨hunbracketed, hne, hlabels, hport⟩
    refine ⟨hopen.mpr hunbracketed, ?_, fun hwww => hne ?_, ?_⟩
    · rw [hbefore, labelsOk_www, hlabels]
    · rw [hbefore] at hwww
      exact List.append_right_eq_self.mp hwww
    · rw [List.append_assoc, hafter, hport]

/-- **A host that may stand without brackets is read under every other name it is given**, and
only such a host is. -/
theorem readable_renamed_iff {t : Tables} {q : SplitResult} {host : List Char} {port : Option Nat} (hat : '@' ∉ host)
    (hclose : ']' ∉ host) :
    (∀ name, Renamed host name → Readable t {q with netloc := name ++ withPort port}) ↔ Bare host (withPort port) := by
  have hread : ∀ {s : List Char}, '@' ∉ s → ']' ∉ s → (Readable t {q with netloc := s ++ withPort port} ↔ _) :=
    fun hs hs' => readable_bare hs hs' rfl
  by_cases hwww : "www.".toList.isPrefixOf host = true
  · obtain ⟨rest, rfl⟩ := List.isPrefixOf_iff_prefix.mp hwww
    have hrest : '@' ∉ rest ∧ ']' ∉ rest := by simpa using And.intro hat hclose
    rw [bare_www]
    constructor
    · exact fun h => (hread hrest.1 hrest.2).mp (h rest (.plain rest rfl))
    · intro hbare
      have hplain := (hread hrest.1 hrest.2).mpr hbare
      intro name hname
      cases hname with
      | plain rest' hsame =>
        cases List.append_cancel_left hsame
        exact hplain
      | www hnot => rw [hwww] at hnot; cases hnot
      | mobile _ =>
        rw [removePrefix_append]
        have hcolon : ':' ∉ "m.".toList := by decide
        refine (hread (by simpa using hrest.1) (by simpa using hrest.2)).mpr ⟨by simpa using hbare.1, ?_, ?_, ?_⟩
        · rw [(cut_append hcolon rest).1]
          simp
        · rw [(cut_append hcolon rest).1, labelsOk_mobile, hbare.2.2.1]
        · rw [List.append_assoc, (cut_append hcolon _).2, hbare.2.2.2]
  · rw [Bool.not_eq_true] at hwww
    have hplain : ∀ start : List Char, ':' ∉ start → start ≠ [] → '[' ∉ start ∧ '@' ∉ start ∧ ']' ∉ start →
        labelsOk (start ++ before ':' host) = labelsOk (before ':' host) →
        (Readable t {q with netloc := (start ++ host) ++ withPort port} ↔
          '[' ∉ host ∧ labelsOk (before ':' host) = true ∧ isPort (after ':' (host ++ withPort port)) = true) := by
      rintro start hcolon hstart ⟨hno, hno', hno''⟩ hsame
      rw [hread (by simp [hno', hat]) (by simp [hno'', hclose]), (cut_append hcolon host).1, hsame, List.append_assoc,
        (cut_append hcolon _).2]
      simp [hno, hstart]
    have hnamed : before ':' host ≠ "www.".toList := by
      intro hsame
      have hstart : "www.".toList <+: host := hsame ▸ List.takeWhile_prefix _
      rw [List.isPrefixOf_iff_prefix.mpr hstart] at hwww
      cases hwww
    constructor
    · intro h
      obtain ⟨hopen, hlabels, hport⟩ := (hplain "www.".toList (by decide) (by decide) (by decide) (labelsOk_www _)).mp
        (h _ (.www hwww))
      exact ⟨hopen, hlabels, hnamed, hport⟩
    · rintro ⟨hopen, hlabels, -, hport⟩ name hname
      cases hname with
      | plain rest hsame =>
        rw [hsame] at hwww
        simp at hwww
      | www _ =>
        exact (hplain _ (by decide) (by decide) (by decide) (labelsOk_www _)).mpr ⟨hopen, hlabels, hport⟩
      | mobile _ =>
        rw [removePrefix, if_neg (by rw [hwww]; decide)]
        exact (hplain _ (by decide) (by decide) (by decide) (labelsOk_mobile _)).mpr ⟨hopen, hlabels, hport⟩

/-! ### Paths and queries -/

theorem kept_urlencode {pairs : List (List Char × List Char)} : ∀ ch ∈ urlencode pairs, isKept ch = true ∧ ch ≠ '#' := by
  intro ch hch
  have hsafe : isSafe ch = true → isKept ch = true ∧ ch ≠ '#' := by
    intro h
    have hne : ∀ d, isSafe d = false → ch ≠ d := by
      rintro d hd rfl
      rw [hd] at h
      cases h
    simp [isKept, hne '\t' (by decide), hne '\r' (by decide), hne '\n' (by decide), hne '#' (by decide)]
  obtain rfl | rfl | rfl | rfl | h := urlencode_chars hch
  · decide
  · decide
  · decide
  · decide
  · exact hsafe h

/-- A language is letters, digits and hyphens. -/
theorem isLanguage_chars {language : List Char} (h : isLanguage language = true) :
    ∀ ch ∈ language, isAlnum ch = true ∨ ch = '-' := by
  have hgroups : ∀ group ∈ language.splitOn '-', ∀ ch ∈ group, isAlnum ch = true := by
    unfold isLanguage at h
    cases hsplit : language.splitOn '-' with
    | nil => exact absurd hsplit (List.splitOn_ne_nil _ _)
    | cons first groups =>
      rw [hsplit] at h
      simp only [Bool.and_eq_true, List.all_eq_true] at h
      obtain ⟨⟨⟨hfirst, -⟩, -⟩, hrest⟩ := h
      intro group hgroup ch hch
      obtain rfl | hgroup := List.mem_cons.mp hgroup
      · rw [isAlnum, hfirst ch hch, Bool.true_or]
      · exact (hrest group hgroup).1.1 ch hch
  intro ch hch
  have hjoined : ['-'].intercalate (language.splitOn '-') = language := List.intercalate_splitOn '-'
  rw [← hjoined] at hch
  obtain hhyphen | ⟨piece, hpiece, hmem⟩ := Lib.Lists.mem_intercalate hch
  · exact .inr (List.mem_singleton.mp hhyphen)
  · exact .inl (hgroups piece hpiece ch hmem)

/-- Its lower case goes into a path. -/
theorem kept_language (c : Codecs) {language : List Char} (h : isLanguage language = true) :
    ∀ ch ∈ c.lower language, isKept ch = true ∧ ch ≠ '?' ∧ ch ≠ '#' := by
  have hchars := isLanguage_chars h
  have hascii : isAscii language = true := by
    refine List.all_eq_true.mpr fun ch hch => ?_
    rw [decide_eq_true_eq]
    obtain halnum | rfl := hchars ch hch
    · simp only [isAlnum, isAlpha, isDigit, Bool.or_eq_true, Bool.and_eq_true, decide_eq_true_eq] at halnum
      obtain (⟨-, hle⟩ | ⟨-, hle⟩) | ⟨-, hle⟩ := halnum
      · exact UInt32.lt_of_le_of_lt hle (by decide)
      · exact UInt32.lt_of_le_of_lt hle (by decide)
      · exact UInt32.lt_of_le_of_lt hle (by decide)
    · decide
  intro ch hch
  rw [c.lower_ascii _ hascii] at hch
  have hne : ∀ d, d.val < 97 → (isAlnum d = true ∨ d = '-') = False → ch ≠ d := by
    rintro d hsmall hno rfl
    have hmem := mem_of_mem_asciiLower hch (.inl hsmall)
    exact hno ▸ hchars _ hmem
  have hnone : ∀ d ∈ ['\t', '\r', '\n', '?', '#'], ch ≠ d := by
    intro d hd
    refine hne d ?_ ?_
    · simp only [List.mem_cons, List.not_mem_nil, or_false] at hd
      obtain rfl | rfl | rfl | rfl | rfl := hd <;> decide
    · simp only [List.mem_cons, List.not_mem_nil, or_false] at hd
      obtain rfl | rfl | rfl | rfl | rfl := hd <;> exact eq_false (by decide)
  simp only [List.forall_mem_cons] at hnone
  obtain ⟨htab, hreturn, hbreak, hmark, hhash, -⟩ := hnone
  simp [isKept, htab, hreturn, hbreak, hmark, hhash]

/-- A path without the slashes at its end is empty or still begins with one. -/
theorem head_rstrip {path : List Char} (hroot : path.head? = some '/') :
    rstrip '/' path = [] ∨ (rstrip '/' path).head? = some '/' := by
  obtain ⟨more, hmore⟩ : rstrip '/' path <+: path := List.rdropWhile_prefix _ _
  by_cases hempty : rstrip '/' path = []
  · exact .inl hempty
  · refine .inr ?_
    rw [← hroot, ← List.head?_append_of_ne_nil _ hempty, hmore]

/-! ### What the candidates are -/

/-- Where a candidate comes from: it keeps the authority of the target, it puts its host under
another name, or the page declares it. -/
inductive Candidate (c : Codecs) (q : SplitResult) (port : Option Nat) (canonicalUrl : Option String) : String → Prop
  | same (q' : SplitResult) : Web q' → q'.netloc = q.netloc → (q'.scheme = q.scheme ∨ q'.scheme = "https".toList) →
      Candidate c q port canonicalUrl (String.ofList (urlunsplit q'))
  | renamed (name : List Char) : q.hostname c.toTables ≠ [] → Renamed (q.hostname c.toTables) name →
      Candidate c q port canonicalUrl (unsplit q.scheme (name ++ withPort port) q.path q.query)
  | observed (url : String) : safeOptionalUrl c canonicalUrl = some url → Candidate c q port canonicalUrl url

section
variable {c : Codecs} {q : SplitResult} (h : Web q) {original clean : String} {written : Option Nat}
  {language region canonicalUrl : Option String}
include h

/-- Another path and query under the authority of the target. -/
theorem candidate_same {port : Option Nat} {scheme path query : List Char}
    (hscheme : scheme = q.scheme ∨ scheme = "https".toList) (hroot : path.head? = some '/')
    (hpath : ∀ ch ∈ path, isKept ch = true ∧ ch ≠ '?' ∧ ch ≠ '#') (hquery : ∀ ch ∈ query, isKept ch = true ∧ ch ≠ '#') :
    Candidate c q port canonicalUrl (unsplit scheme q.netloc path query) := by
  refine .same _ (web_mk ?_ h.site hroot hpath hquery) rfl hscheme
  obtain rfl | rfl := hscheme
  · exact h.web
  · exact .inr rfl

/-- **Every candidate comes from one of the three.** -/
theorem candidate_of_mem (hclean : ∃ pairs, clean = unsplit q.scheme q.netloc q.path (urlencode pairs)) :
    ∀ entry ∈ candidates c original clean q written language region canonicalUrl, ∀ url, entry.2 = some url →
      Candidate c q (written.filter (· ≠ 0)) canonicalUrl url := by
  have hstart : ∀ {path : List Char}, path.head? = some '/' → ∀ more, (path ++ more).head? = some '/' := by
    intro path hroot more
    rw [List.head?_append, hroot]
    rfl
  have hslash : isKept '/' = true ∧ '/' ≠ '?' ∧ '/' ≠ '#' := by decide
  have hbare : ∀ ch ∈ rstrip '/' q.path, isKept ch = true ∧ ch ≠ '?' ∧ ch ≠ '#' := fun ch hch =>
    h.path ch ((List.rdropWhile_prefix _ _).subset hch)
  unfold candidates
  dsimp only
  simp only [List.forall_mem_cons, Option.ite_none_right_eq_some, Option.some.injEq, Option.map_eq_some_iff]
  refine ⟨?_, ?_, ?_, ?_, ?_, ?_, ?_, ?_, ?_, ?_, ?_, ?_, ?_, by simp⟩
  · rintro url ⟨-, rfl⟩
    exact candidate_same h (.inr rfl) h.root h.path h.query
  · rintro url hurl
    cases hurl
  · rintro url ⟨hwww, rfl⟩
    obtain ⟨rest, hrest⟩ := List.isPrefixOf_iff_prefix.mp hwww
    rw [← hrest, removePrefix_append]
    refine .renamed rest ?_ (.plain rest hrest.symm)
    rw [← hrest]
    simp
  · rintro url ⟨hwww, rfl⟩
    simp only [Bool.and_eq_true, Bool.not_eq_true'] at hwww
    exact .renamed _ (List.isEmpty_eq_false_iff.mp hwww.1) (.www hwww.2)
  · rintro url ⟨-, rfl⟩
    refine candidate_same h (.inl rfl) (hstart h.root _) (fun ch hch => ?_) h.query
    obtain hch | hch := List.mem_append.mp hch
    · exact h.path ch hch
    · exact List.mem_singleton.mp hch ▸ hslash
  · rintro url ⟨-, rfl⟩
    by_cases hempty : rstrip '/' q.path = []
    · rw [if_pos (by simp [hempty])]
      exact candidate_same h (.inl rfl) rfl (fun ch hch => List.mem_singleton.mp hch ▸ hslash) h.query
    · rw [if_neg (by simpa using hempty)]
      exact candidate_same h (.inl rfl) ((head_rstrip h.root).resolve_left hempty) hbare h.query
  · rintro url ⟨-, rfl⟩
    obtain ⟨pairs, rfl⟩ := hclean
    exact candidate_same h (.inl rfl) h.root h.path kept_urlencode
  · exact fun url hurl => .observed url hurl
  · rintro url ⟨hmobile, rfl⟩
    simp only [Bool.and_eq_true, Bool.not_eq_true'] at hmobile
    exact .renamed _ (List.isEmpty_eq_false_iff.mp hmobile.1) (.mobile hmobile.2)
  · rintro url ⟨-, rfl⟩
    refine candidate_same h (.inl rfl) ?_ (fun ch hch => ?_) h.query
    · obtain hempty | hroot := head_rstrip h.root
      · rw [hempty]
        rfl
      · exact hstart hroot _
    · obtain hch | hch := List.mem_append.mp hch
      · exact hbare ch hch
      · exact List.all_eq_true.mp (by decide : "/amp".toList.all (fun ch => isKept ch && ch != '?' && ch != '#') = true) ch hch
          |> fun hall => by simpa [and_assoc] using hall
  · rintro url rfl
    exact candidate_same h (.inl rfl) h.root h.path kept_urlencode
  · rintro url ⟨path, ⟨text, htext, rfl⟩, rfl⟩
    obtain ⟨-, hlanguage⟩ := Option.filter_eq_some_iff.mp htext
    rw [if_pos h.root]
    refine candidate_same h (.inl rfl) rfl (fun ch hch => ?_) h.query
    obtain hch | hch := List.mem_append.mp hch
    · obtain rfl | hch := List.mem_cons.mp hch
      · exact hslash
      · exact kept_language c hlanguage ch hch
    · exact h.path ch hch
  · rintro url ⟨query, ⟨text, -, rfl⟩, rfl⟩
    exact candidate_same h (.inl rfl) h.root h.path kept_urlencode

/-- One candidate always keeps the authority: the page in print. -/
theorem print_mem : ∃ entry ∈ candidates c original clean q written language region canonicalUrl,
    ∃ q', Web q' ∧ q'.netloc = q.netloc ∧ q'.scheme = q.scheme ∧ entry.2 = some (String.ofList (urlunsplit q')) := by
  refine ⟨("print_variant", some (unsplit q.scheme q.netloc q.path
    (urlencode (parseQslKeeping q.query ++ [("output".toList, ['1'])])))), List.mem_of_getElem? (i := 10) rfl,
    _, web_mk h.web h.site h.root h.path kept_urlencode, rfl, rfl, rfl⟩

omit h in
/-- Every other name of a host is a candidate. -/
theorem renamed_mem {name : List Char} (hhost : q.hostname c.toTables ≠ []) (hname : Renamed (q.hostname c.toTables) name) :
    ∃ entry ∈ candidates c original clean q written language region canonicalUrl,
      entry.2 = some (unsplit q.scheme (name ++ withPort (written.filter (· ≠ 0))) q.path q.query) := by
  have hnonempty : (q.hostname c.toTables).isEmpty = false := List.isEmpty_eq_false_iff.mpr hhost
  cases hname with
  | plain rest hsame =>
    refine ⟨_, List.mem_of_getElem? (i := 2) rfl, ?_⟩
    dsimp only
    rw [hsame, removePrefix_append, if_pos (by simp)]
  | www hwww =>
    refine ⟨_, List.mem_of_getElem? (i := 3) rfl, ?_⟩
    dsimp only
    rw [hnonempty, hwww]
    rfl
  | mobile hmobile =>
    refine ⟨_, List.mem_of_getElem? (i := 8) rfl, ?_⟩
    dsimp only
    rw [hnonempty, hmobile]
    rfl

omit h in
theorem observed_mem : ∃ entry ∈ candidates c original clean q written language region canonicalUrl,
    entry.2 = safeOptionalUrl c canonicalUrl :=
  ⟨_, List.mem_of_getElem? (i := 7) rfl, rfl⟩

end

/-! ### Under another name -/

theorem usable_withPort {port : Option Nat} {ch : Char} (hch : ch ∈ withPort port) : usable ch = true := by
  cases port with
  | none => cases hch
  | some n =>
    obtain rfl | hch := List.mem_cons.mp hch
    · decide
    · have hdigit := isDigit_toString hch
      have hne : ∀ d, isDigit d = false → (ch == d) = false := by
        intro d hd
        rw [beq_eq_false_iff_ne]
        rintro rfl
        rw [hd] at hdigit
        cases hdigit
      have hle : ch.val ≤ '9'.val := by
        simp only [isDigit, Bool.and_eq_true, decide_eq_true_eq] at hdigit
        exact hdigit.2
      have hsmall : ch.val < 128 := UInt32.lt_of_le_of_lt hle (by decide)
      have hlower : ch.toLower = ch := by
        unfold Char.toLower
        exact dif_neg fun hupper => absurd (UInt32.le_trans hupper.1 hle) (by decide)
      simp [usable, splitsUrl, isNetlocEnd, isKept, hne '/' (by decide), hne '?' (by decide), hne '#' (by decide),
        hne '@' (by decide), bne, hne '\t' (by decide), hne '\r' (by decide), hne '\n' (by decide), hsmall, hlower]

/-- A candidate under another name is a URL of the web. -/
theorem Web.renamed {q : SplitResult} (h : Web q) {name : List Char} (hname : Renamed q.rawHost name) (port : Option Nat) :
    Web {scheme := q.scheme, netloc := name ++ withPort port, path := q.path, query := q.query, fragment := []} := by
  have hhost : ∀ ch ∈ q.rawHost, usable ch = true := fun ch hch => h.site ch (q.rawHost_subset hch)
  have hwww : ∀ ch ∈ "www.".toList, usable ch = true := List.all_eq_true.mp (by decide : "www.".toList.all usable = true)
  have hmobile : ∀ ch ∈ "m.".toList, usable ch = true := List.all_eq_true.mp (by decide : "m.".toList.all usable = true)
  refine web_mk h.web (fun ch hch => ?_) h.root h.path h.query
  obtain hch | hch := List.mem_append.mp hch
  · cases hname with
    | plain rest hsame =>
      refine hhost ch ?_
      rw [hsame]
      exact List.mem_append_right _ hch
    | www _ => exact (List.mem_append.mp hch).elim (hwww ch) (hhost ch)
    | mobile _ =>
      refine (List.mem_append.mp hch).elim (hmobile ch) fun hch => hhost ch ?_
      unfold removePrefix at hch
      split at hch
      · exact (List.drop_sublist _ _).subset hch
      · exact hch
  · exact usable_withPort hch

end Fetech.Variants
