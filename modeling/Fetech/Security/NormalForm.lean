import Fetech.Security
import Fetech.Lib.UrlRoundtrip

/-! The one spelling of a target, part by part (`fetech/security.py`, `normalize_url`).

A target that is accepted is read, its host is encoded, and scheme, host, port, path and query
are put together again. What is relied on of the `idna` codec of the platform is collected in
`Codecs.Idna`: it may rewrite a name thoroughly, so the host that comes out is not always one
that `urlsplit` reads back. -/
namespace Fetech
open Lib.Url

/-! ### The codec -/

/-- Labels as the codec accepts them in an ASCII name: none too long, only the last one empty. -/
def labelsOk (host : List Char) : Bool :=
  (host.splitOn '.').dropLast.all (!·.isEmpty) && (host.splitOn '.').all (·.length < 64)

/-- Characters that would end an authority, set off user information or be cleaned away. -/
def splitsUrl (ch : Char) : Bool := isNetlocEnd ch || ch == '@' || !isKept ch

/-- The `idna` codec as Python documents it: it answers in ASCII, an ASCII name is only
measured, and since `urlsplit` refuses an authority with characters that stand for
delimiters, it does not bring delimiters into a host. -/
structure Codecs.Idna (c : Codecs) : Prop where
  ascii : ∀ {host encoded : List Char}, c.idna host = some encoded → isAscii encoded = true
  ofAscii : ∀ {host : List Char}, isAscii host = true → c.idna host = if labelsOk host then some host else none
  delimiters : ∀ {url : List Char} {parts : SplitResult} {encoded : List Char},
    urlsplit c.toTables url = some parts → c.idna (parts.hostname c.toTables) = some encoded →
      ∀ ch ∈ encoded, splitsUrl ch = true → ch ∈ parts.rawHost

/-- A codec that knows ASCII names only. -/
def plainCodecs : Codecs :=
  {asciiCodecs with idna := fun host => if isAscii host && labelsOk host then some host else none}

theorem eq_of_toLower_eq {d ch : Char} (h : d.toLower = ch) (hch : ch.val < 97 ∨ 122 < ch.val) : d = ch := by
  unfold Char.toLower at h
  split at h
  · rename_i hupper
    exfalso
    have h1 : 65 ≤ d.val.toNat := hupper.1
    have h2 : d.val.toNat ≤ 90 := hupper.2
    have hval : (d.val + 32).toNat = ch.val.toNat := by
      rw [← h]
      rfl
    have h3 : (32 : UInt32).toNat = 32 := rfl
    rw [UInt32.toNat_add, h3] at hval
    have hbounds : ch.val.toNat < 97 ∨ 122 < ch.val.toNat := hch
    omega
  · exact h

theorem splitsUrl_bound {ch : Char} (h : splitsUrl ch = true) : ch.val < 97 := by
  simp only [splitsUrl, isNetlocEnd, isKept, Bool.or_eq_true, beq_iff_eq, Bool.not_eq_true', Bool.and_eq_false_iff,
    bne_eq_false_iff_eq] at h
  obtain (((rfl | rfl) | rfl) | rfl) | ((rfl | rfl) | rfl) := h <;> decide

theorem mem_of_mem_asciiLower {s : List Char} {ch : Char} (h : ch ∈ asciiLower s) (hch : ch.val < 97 ∨ 122 < ch.val) :
    ch ∈ s := by
  obtain ⟨d, hd, hlower⟩ := List.mem_map.mp h
  exact eq_of_toLower_eq hlower hch ▸ hd

theorem isAscii_mono {s s' : List Char} (h : isAscii s' = true) (hsub : s ⊆ s') : isAscii s = true :=
  List.all_eq_true.mpr fun ch hch => List.all_eq_true.mp h ch (hsub hch)

theorem asciiLower_eq_self {s s' : List Char} (h : asciiLower s' = s') (hsub : s ⊆ s') : asciiLower s = s := by
  have heach : ∀ ch ∈ s', ch.toLower = id ch := List.map_inj_left.mp (h.trans (List.map_id s').symm)
  exact (List.map_congr_left fun ch hch => heach ch (hsub hch)).trans (List.map_id s)

/-- The host of an ASCII name is the name in lower case. -/
theorem hostname_ascii (t : Tables) {p : SplitResult} (h : isAscii p.rawHost = true)
    (hlower : asciiLower p.rawHost = p.rawHost) : p.hostname t = p.rawHost := by
  unfold SplitResult.hostname
  dsimp only
  split
  · rename_i hzone
    have hbefore := before_subset '%' p.rawHost
    rw [t.lower_ascii _ (isAscii_mono h hbefore), asciiLower_eq_self hlower hbefore]
    exact (eq_before_after (by simpa using hzone)).symm
  · rw [t.lower_ascii _ h, hlower]

theorem plainCodecs_idna : plainCodecs.Idna where
  ascii {host encoded} h := by
    simp only [plainCodecs, Option.ite_none_right_eq_some, Bool.and_eq_true, Option.some.injEq] at h
    obtain ⟨⟨hascii, -⟩, rfl⟩ := h
    exact hascii
  ofAscii {host} h := by simp [plainCodecs, h]
  delimiters {url parts encoded} hparts h ch hch hsplits := by
    simp only [plainCodecs, Option.ite_none_right_eq_some, Bool.and_eq_true, Option.some.injEq] at h
    obtain ⟨⟨hascii, -⟩, rfl⟩ := h
    have hbound : ch.val < 97 ∨ 122 < ch.val := .inl (splitsUrl_bound hsplits)
    unfold SplitResult.hostname at hch
    dsimp only at hch
    split at hch
    · obtain hch | hch := List.mem_append.mp hch
      · exact before_subset _ _ (mem_of_mem_asciiLower hch hbound)
      · obtain rfl | hch := List.mem_cons.mp hch
        · simp [splitsUrl, isNetlocEnd, isKept] at hsplits
        · exact after_subset _ _ hch
    · exact mem_of_mem_asciiLower hch hbound

/-! ### What a target becomes -/

/-- The host of a target in its one spelling, from what the codec made of it. -/
def canonicalHost (c : Codecs) (encoded : List Char) : List Char := rstrip '.' (c.lower encoded)

/-- The port the scheme stands for. -/
def defaultPort (scheme : List Char) : Nat := if scheme = "https".toList then 443 else 80

/-- The port as the normal form shows it: not the one the scheme stands for. -/
def shownPort (scheme : List Char) (port : Option Nat) : Option Nat := port.filter (· ≠ defaultPort scheme)

theorem shownPort_shownPort (scheme : List Char) (port : Option Nat) :
    shownPort scheme (shownPort scheme port) = shownPort scheme port := by
  unfold shownPort
  rw [Option.filter_filter]
  simp

theorem mem_of_mem_shownPort {scheme : List Char} {port : Option Nat} {n : Nat} (h : n ∈ shownPort scheme port) : n ∈ port := by
  rw [shownPort, Option.mem_def, Option.filter_eq_some_iff] at h
  exact h.1

/-- The parts of the normal form of a target. -/
def normalForm (c : Codecs) (parts : SplitResult) (encoded : List Char) (port : Option Nat) : SplitResult where
  scheme := parts.scheme
  netloc := bracketed (canonicalHost c encoded) ++ withPort (shownPort parts.scheme port)
  path := if parts.path.isEmpty then ['/'] else parts.path
  query := parts.query
  fragment := []

/-- A target that is accepted, as it was read. -/
structure ReadAs (c : Codecs) (target : String) (parts : SplitResult) (encoded : List Char) (port : Option Nat) :
    Prop where
  split : urlsplit c.toTables (strip target.toList) = some parts
  scheme : parts.scheme = "http".toList ∨ parts.scheme = "https".toList
  userinfo : parts.hasUserinfo = false
  hostname : parts.hostname c.toTables ≠ []
  idna : c.idna (parts.hostname c.toTables) = some encoded
  port : parts.port = some port

theorem lower_of_urlsplit {c : Codecs} {url : List Char} {p : SplitResult} (h : urlsplit c.toTables url = some p) :
    c.lower p.scheme = p.scheme := by
  obtain ⟨hascii, hlower⟩ := asciiLower_of_urlsplit h
  rw [c.lower_ascii _ hascii, hlower]

/-- The two schemes of the web, as texts and as lists. -/
theorem web_iff {scheme : List Char} : (String.ofList scheme = "http" ∨ String.ofList scheme = "https") ↔
    (scheme = "http".toList ∨ scheme = "https".toList) := by
  have hname : ∀ name : String, String.ofList scheme = name ↔ scheme = name.toList := fun name =>
    ⟨fun h => by rw [← h, String.toList_ofList], fun h => by rw [h, String.ofList_toList]⟩
  rw [hname, hname]

theorem displayed_eq {scheme : List Char} (host : List Char) (port : Option Nat)
    (h : scheme = "http".toList ∨ scheme = "https".toList) :
    (match port with
      | some n => if (String.ofList scheme = "http" ∧ port = some 80) ∨ (String.ofList scheme = "https" ∧ port = some 443)
          then bracketed host else bracketed host ++ ':' :: (toString n).toList
      | none => bracketed host) = bracketed host ++ withPort (shownPort scheme port) := by
  cases port with
  | none => simp [shownPort, withPort]
  | some n =>
    obtain rfl | rfl := h
    · by_cases hn : n = 80 <;> simp [defaultPort, shownPort, withPort, Option.filter, hn]
    · by_cases hn : n = 443 <;> simp [defaultPort, shownPort, withPort, Option.filter, hn]

/-- **What `normalize_url` accepts, and what it makes of it.** -/
theorem normalizeUrl_iff {c : Codecs} {target url : String} : normalizeUrl c target = some url ↔
    ∃ parts encoded port, ReadAs c target parts encoded port ∧
      url = String.ofList (urlunsplit (normalForm c parts encoded port)) := by
  have hform : ∀ parts encoded port, ReadAs c target parts encoded port →
      normalizeUrl c target = some (String.ofList (urlunsplit (normalForm c parts encoded port))) := by
    intro parts encoded port h
    have hempty : (strip target.toList).isEmpty = false := by
      rw [Bool.eq_false_iff, ne_eq, List.isEmpty_iff]
      intro hnil
      have hsplit := h.split
      rw [hnil] at hsplit
      have hscheme : parts.scheme = [] := scheme_of_urlsplit _ hsplit
      obtain hweb | hweb := h.scheme <;> simp [hscheme] at hweb
    have hhostname : (parts.hostname c.toTables).isEmpty = false := by
      rw [Bool.eq_false_iff, ne_eq, List.isEmpty_iff]
      exact h.hostname
    have hshown := displayed_eq (canonicalHost c encoded) port h.scheme
    simp only [normalizeUrl, h.split, lower_of_urlsplit h.split, web_iff.mpr h.scheme, h.userinfo, hhostname, h.idna,
      h.port, hempty, guard_true, Option.bind_eq_bind, Option.bind_some, Bool.not_false, Option.pure_def]
    exact congrArg (fun netloc => some (String.ofList (urlunsplit {normalForm c parts encoded port with netloc}))) hshown
  constructor
  · intro h
    have hread := h
    simp only [normalizeUrl, Option.bind_eq_bind, Option.bind_eq_some_iff] at h
    obtain ⟨_, -, parts, hparts, _, hscheme, _, hinfo, _, hhostname, encoded, hencoded, port, hport, -⟩ := h
    have hread' : ReadAs c target parts encoded port := by
      refine ⟨hparts, ?_, ?_, ?_, hencoded, hport⟩
      · rw [lower_of_urlsplit hparts] at hscheme
        refine web_iff.mp ?_
        by_contra hno
        simp [guard, hno] at hscheme
      · by_contra hno
        simp [guard, hno] at hinfo
      · intro hno
        simp [guard, hno] at hhostname
    refine ⟨parts, encoded, port, hread', ?_⟩
    rw [hform parts encoded port hread'] at hread
    exact (Option.some.inj hread).symm
  · rintro ⟨parts, encoded, port, h, rfl⟩
    exact hform parts encoded port h

namespace ReadAs
variable {c : Codecs} {target url : String} {parts : SplitResult} {encoded : List Char} {port : Option Nat}

theorem isScheme (h : ReadAs c target parts encoded port) : IsScheme parts.scheme := by
  obtain hweb | hweb := h.scheme
  · exact hweb ▸ isScheme_http
  · exact hweb ▸ isScheme_https

theorem netloc_ne_nil (h : ReadAs c target parts encoded port) : parts.netloc ≠ [] := by
  intro hnil
  have hraw : parts.rawHost = [] := List.subset_nil.mp (hnil ▸ parts.rawHost_subset)
  refine h.hostname ?_
  rw [hostname_ascii _ (by rw [hraw]; rfl) (by rw [hraw]; rfl), hraw]

section
variable (hc : c.Idna) (h : ReadAs c target parts encoded port)
include hc h

/-- The host that comes out is in ASCII and in lower case. -/
theorem host_lower : isAscii (canonicalHost c encoded) = true ∧
    asciiLower (canonicalHost c encoded) = canonicalHost c encoded := by
  have hascii := hc.ascii h.idna
  have hsub : canonicalHost c encoded ⊆ asciiLower encoded := by
    rw [canonicalHost, c.lower_ascii _ hascii]
    exact (List.rdropWhile_prefix _ _).subset
  exact ⟨isAscii_mono (isAscii_asciiLower hascii) hsub, asciiLower_eq_self (asciiLower_asciiLower encoded) hsub⟩

/-- No delimiter comes into it. -/
theorem host_unsplit : ∀ ch ∈ canonicalHost c encoded, splitsUrl ch = false := by
  intro ch hch
  by_contra hsplits
  rw [Bool.not_eq_false] at hsplits
  rw [canonicalHost, c.lower_ascii _ (hc.ascii h.idna)] at hch
  have hmem := mem_of_mem_asciiLower ((List.rdropWhile_prefix _ _).subset hch) (.inl (splitsUrl_bound hsplits))
  have hraw := hc.delimiters h.split h.idna ch hmem hsplits
  obtain ⟨hend, hkept⟩ := (netloc_of_urlsplit _ h.split).2.2 ch (parts.rawHost_subset hraw)
  have hat : ch ≠ '@' := by
    rintro rfl
    exact parts.at_notMem_rawHost hraw
  have hkept' : isKept ch = true := hkept
  simp [splitsUrl, hend, hat, hkept'] at hsplits

theorem at_notMem_host : '@' ∉ canonicalHost c encoded := fun hmem => by
  have hno := h.host_unsplit hc '@' hmem
  simp [splitsUrl] at hno

theorem netloc_unsplit : ∀ ch ∈ (normalForm c parts encoded port).netloc, isNetlocEnd ch = false ∧ isKept ch = true := by
  intro ch hch
  have hhost : ∀ ch ∈ canonicalHost c encoded, isNetlocEnd ch = false ∧ isKept ch = true := by
    intro ch hch
    have hno := h.host_unsplit hc ch hch
    simp only [splitsUrl, Bool.or_eq_false_iff, Bool.not_eq_false'] at hno
    exact ⟨hno.1.1, hno.2⟩
  obtain hch | hch := List.mem_append.mp hch
  · unfold bracketed at hch
    split at hch
    · simp only [List.cons_append, List.mem_cons, List.mem_append, List.not_mem_nil, or_false] at hch
      obtain rfl | hch | rfl := hch
      · decide
      · exact hhost ch hch
      · decide
    · exact hhost ch hch
  · by_contra hno
    refine notMem_withPort (c := ch) ?_ ?_ hch
    · rintro rfl
      exact hno (by decide)
    · rw [Bool.eq_false_iff]
      intro hdigit
      refine hno ?_
      have hne : ∀ d, isDigit d = false → ch ≠ d := by
        rintro d hd rfl
        rw [hdigit] at hd
        cases hd
      simp [isNetlocEnd, isKept, hne '/' (by decide), hne '?' (by decide), hne '#' (by decide), hne '\t' (by decide),
        hne '\r' (by decide), hne '\n' (by decide)]

theorem rooted : (normalForm c parts encoded port).Rooted where
  path := by
    intro ch hch
    dsimp only [normalForm] at hch
    split at hch
    · cases List.mem_singleton.mp hch
      decide
    · exact (clean_of_urlsplit h.split).path ch hch
  query := (clean_of_urlsplit h.split).query
  scheme := h.isScheme
  authority := by
    show usesNetloc.contains (String.ofList parts.scheme) = true
    obtain hweb | hweb := h.scheme
    · rw [hweb]
      decide
    · rw [hweb]
      decide
  netloc := h.netloc_unsplit hc
  root := by
    show (if parts.path.isEmpty then ['/'] else parts.path).head? = some '/'
    split
    · rfl
    · rename_i hpath
      exact (path_of_urlsplit h.split h.netloc_ne_nil).resolve_left (by simpa using hpath)
  fragment := rfl

/-- An authority in its one spelling is in ASCII and in lower case. -/
theorem netloc_lower : isAscii (normalForm c parts encoded port).netloc = true ∧
    asciiLower (normalForm c parts encoded port).netloc = (normalForm c parts encoded port).netloc := by
  obtain ⟨hascii, hlower⟩ := h.host_lower hc
  have hport : isAscii (withPort (shownPort parts.scheme port)) = true ∧
      asciiLower (withPort (shownPort parts.scheme port)) =
        withPort (shownPort parts.scheme port) := by
    cases shownPort parts.scheme port with
    | none => exact ⟨rfl, rfl⟩
    | some n =>
      have hdigit : ∀ ch ∈ (toString n).toList, ch.val ≤ '9'.val := by
        intro ch hch
        have hdigit := isDigit_toString hch
        simp only [isDigit, Bool.and_eq_true, decide_eq_true_eq] at hdigit
        exact hdigit.2
      refine ⟨List.all_eq_true.mpr fun ch hch => ?_, (List.map_congr_left fun ch hch => ?_).trans (List.map_id _)⟩
      · rw [decide_eq_true_eq]
        obtain rfl | hch := List.mem_cons.mp hch
        · decide
        · exact UInt32.lt_of_le_of_lt (hdigit ch hch) (by decide)
      · obtain rfl | hch := List.mem_cons.mp hch
        · decide
        · unfold Char.toLower
          rw [dif_neg]
          · rfl
          · exact fun hupper => absurd (UInt32.le_trans hupper.1 (hdigit ch hch)) (by decide)
  have hshown : isAscii (bracketed (canonicalHost c encoded)) = true ∧
      asciiLower (bracketed (canonicalHost c encoded)) = bracketed (canonicalHost c encoded) := by
    unfold bracketed
    split
    · rw [isAscii] at hascii ⊢
      rw [asciiLower] at hlower ⊢
      refine ⟨?_, ?_⟩
      · rw [List.cons_append, List.all_cons, List.all_append, hascii]
        decide
      · rw [List.cons_append, List.map_cons, List.map_append, hlower]
        rfl
    · exact ⟨hascii, hlower⟩
  rw [isAscii] at hport hshown ⊢
  rw [asciiLower] at hport hshown ⊢
  refine ⟨?_, ?_⟩
  · rw [normalForm, List.all_append, hshown.1, hport.1]
    rfl
  · rw [normalForm, List.map_append, hshown.2, hport.2]

/-- **The normal form is read as it was put together**, if its brackets may stand as they do. -/
theorem urlsplit_url : urlsplit c.toTables (urlunsplit (normalForm c parts encoded port)) =
    if bracketsOk c.toTables (normalForm c parts encoded port).netloc then some (normalForm c parts encoded port)
    else none := by
  have hascii : netlocOk c.toTables (normalForm c parts encoded port).netloc = true := by
    rw [netlocOk, (h.netloc_lower hc).1]
    rfl
  rw [(h.rooted hc).urlsplit_urlunsplit, hascii, Bool.and_true]

/-- However it is read, the host of the normal form is in ASCII and in lower case. -/
theorem hostname_normal :
    (normalForm c parts encoded port).hostname c.toTables = (normalForm c parts encoded port).rawHost ∧
      isAscii (normalForm c parts encoded port).rawHost = true ∧
      asciiLower (normalForm c parts encoded port).rawHost = (normalForm c parts encoded port).rawHost := by
  obtain ⟨hascii, hlower⟩ := h.netloc_lower hc
  have hsub := (normalForm c parts encoded port).rawHost_subset
  have hraw := isAscii_mono hascii hsub
  have hsame := asciiLower_eq_self hlower hsub
  exact ⟨hostname_ascii _ hraw hsame, hraw, hsame⟩

/-- Where the host reads back, host and port of the normal form are those of the target. -/
theorem readsBack_read (hback : ReadsBack c.toTables (canonicalHost c encoded)) :
    bracketsOk c.toTables (normalForm c parts encoded port).netloc = true ∧
      (normalForm c parts encoded port).hostname c.toTables = canonicalHost c encoded ∧
      (normalForm c parts encoded port).port = some (shownPort parts.scheme port) := by
  have hport : ∀ n ∈ shownPort parts.scheme port, n ≤ 65535 := by
    exact fun n hn => SplitResult.port_le h.port n (mem_of_mem_shownPort hn)
  obtain ⟨hok, hraw, hread⟩ := hback.read (p := normalForm c parts encoded port) (h.at_notMem_host hc) hport rfl
  exact ⟨hok, (h.hostname_normal hc).1.trans hraw, hread⟩

theorem at_notMem_normal : '@' ∉ (normalForm c parts encoded port).netloc := by
  intro hmem
  obtain hmem | hmem := List.mem_append.mp hmem
  · unfold bracketed at hmem
    split at hmem
    · simp [h.at_notMem_host hc] at hmem
    · exact h.at_notMem_host hc hmem
  · exact notMem_withPort (by decide) (by decide) hmem

end

end ReadAs

end Fetech
