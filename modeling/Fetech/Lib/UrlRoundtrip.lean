import Fetech.Lib.Url
import Mathlib.Data.List.DropRight

/-! What `urlsplit` reads back of a URL that was put together from its parts.

A URL of a scheme, an authority, a path that begins with a slash and a query is taken apart
where it was joined, since none of the parts holds what ends it. The authority is read back
as host and port if its brackets stand around a host with a colon and nowhere else. -/
namespace Lib.Url

variable (t : Tables)

/-! ### Cutting -/

theorem before_append_cons {c : Char} {s : List Char} (h : c ∉ s) (rest : List Char) :
    before c (s ++ c :: rest) = s ∧ after c (s ++ c :: rest) = rest := by
  rw [before_append, after_append, if_neg h, if_neg h]
  simp [before, after]

theorem notMem_before (c : Char) (s : List Char) : c ∉ before c s := fun h => by
  have hne := List.all_eq_true.mp List.all_takeWhile c h
  simp at hne

theorem length_after_lt {c : Char} {s : List Char} (h : c ∈ s) : (after c s).length < s.length := by
  have hsplit := congrArg List.length (eq_before_after h)
  rw [List.length_append, List.length_cons] at hsplit
  omega

theorem length_before_lt {c : Char} {s : List Char} (h : c ∈ s) : (before c s).length < s.length := by
  have hsplit := congrArg List.length (eq_before_after h)
  rw [List.length_append, List.length_cons] at hsplit
  omega

theorem afterLast_of_notMem {c : Char} {s : List Char} (h : c ∉ s) : afterLast c s = s ∧ beforeLast c s = [] := by
  have hreverse : c ∉ s.reverse := fun hmem => h (List.mem_reverse.mp hmem)
  refine ⟨?_, ?_⟩
  · rw [afterLast, (before_of_notMem hreverse).1, List.reverse_reverse]
  · exact if_neg (by simpa using h)

/-- The host of an authority holds nothing that sets off user information. -/
theorem SplitResult.at_notMem_rawHost (p : SplitResult) : '@' ∉ p.rawHost := by
  have hinfo : '@' ∉ afterLast '@' p.netloc := fun hmem => notMem_before _ _ (List.mem_reverse.mp hmem)
  unfold SplitResult.rawHost
  dsimp only
  split
  · exact fun hmem => hinfo (after_subset '[' _ (before_subset ']' _ hmem))
  · exact fun hmem => hinfo (before_subset ':' _ hmem)

theorem SplitResult.port_le {p : SplitResult} {port : Option Nat} (h : p.port = some port) : ∀ n ∈ port, n ≤ 65535 := by
  intro n hn
  cases hn
  unfold SplitResult.port at h
  split at h
  · cases h
  · split at h
    · rename_i hport
      simp only [Bool.and_eq_true, decide_eq_true_eq] at hport
      cases h
      exact hport.2
    · cases h

/-! ### Path and query -/

/-- What `urlsplit` reads behind an authority: a path and a query that end where they have
to, with nothing in them that is cleaned away. -/
structure SplitResult.Clean (p : SplitResult) : Prop where
  path : ∀ c ∈ p.path, isKept c = true ∧ c ≠ '?' ∧ c ≠ '#'
  query : ∀ c ∈ p.query, isKept c = true ∧ c ≠ '#'

variable {t}

theorem clean_of_urlsplit {url : List Char} {p : SplitResult} (h : urlsplit t url = some p) : p.Clean := by
  rw [urlsplit_eq] at h
  simp only [Option.ite_none_right_eq_some, Option.some.injEq] at h
  obtain ⟨-, rfl⟩ := h
  have hrest : ∀ c ∈ (splitAuthority (splitScheme [] (clean url)).2).2, isKept c = true := fun c hc =>
    (List.mem_filter.mp ((splitScheme_subset (clean url)).2 ((splitAuthority_subset _).2 hc))).2
  generalize (splitAuthority (splitScheme [] (clean url)).2).2 = rest at hrest
  refine ⟨fun c hc => ⟨hrest c (before_subset '#' _ (before_subset '?' _ hc)), ?_, ?_⟩, fun c hc =>
    ⟨hrest c (before_subset '#' _ (after_subset '?' _ hc)), ?_⟩⟩
  · rintro rfl
    exact notMem_before _ _ hc
  · rintro rfl
    exact notMem_before _ _ (before_subset '?' _ hc)
  · rintro rfl
    exact notMem_before _ _ (after_subset '?' _ hc)

/-- Behind an authority a path begins with a slash, if there is one. -/
theorem path_of_urlsplit {url : List Char} {p : SplitResult} (h : urlsplit t url = some p) (hnetloc : p.netloc ≠ []) :
    p.path = [] ∨ p.path.head? = some '/' := by
  rw [urlsplit_eq] at h
  simp only [Option.ite_none_right_eq_some, Option.some.injEq] at h
  obtain ⟨-, rfl⟩ := h
  have hrest : ∀ rest : List Char, (splitAuthority rest).1 ≠ [] → ∀ ch ∈ (splitAuthority rest).2.head?, isNetlocEnd ch = true := by
    intro rest hne ch hch
    unfold splitAuthority at hne hch
    split at hne
    · rename_i tail
      have hfirst : (tail.dropWhile (!isNetlocEnd ·)).head? = some ch := hch
      have hnot := List.head?_dropWhile_not (!isNetlocEnd ·) tail
      rw [hfirst] at hnot
      simpa using hnot
    · exact absurd rfl hne
  have hfirst := hrest _ hnetloc
  show before '?' (before '#' _) = [] ∨ (before '?' (before '#' _)).head? = some '/'
  cases hp : (splitAuthority (splitScheme [] (clean url)).2).2 with
  | nil => exact .inl rfl
  | cons ch rest =>
    rw [hp] at hfirst
    have hend := hfirst ch rfl
    simp only [isNetlocEnd, Bool.or_eq_true, beq_iff_eq] at hend
    obtain (rfl | rfl) | rfl := hend
    · exact .inr (by simp [before])
    · exact .inl (by simp [before])
    · exact .inl (by simp [before])

/-- A scheme that was read is in lower case. -/
theorem asciiLower_of_urlsplit {url : List Char} {p : SplitResult} (h : urlsplit t url = some p) :
    isAscii p.scheme = true ∧ asciiLower p.scheme = p.scheme := by
  rw [scheme_of_urlsplit t h]
  unfold splitScheme
  dsimp only
  split
  · rename_i hname
    simp only [Bool.and_eq_true] at hname
    exact ⟨isAscii_asciiLower (isAscii_of_isSchemeChar hname.2), asciiLower_asciiLower _⟩
  · exact ⟨rfl, rfl⟩

@[simp] theorem withQuery_nil : withQuery [] = [] := rfl

theorem splitRest_withQuery {scheme netloc path query : List Char} (hpath : ∀ c ∈ path, c ≠ '?' ∧ c ≠ '#')
    (hquery : '#' ∉ query) :
    splitRest scheme netloc (path ++ withQuery query) = {scheme, netloc, path, query, fragment := []} := by
  have hmark : '?' ∉ path := fun hmem => (hpath _ hmem).1 rfl
  have hhash : '#' ∉ path ++ withQuery query := by
    intro hmem
    obtain hmem | hmem := List.mem_append.mp hmem
    · exact (hpath _ hmem).2 rfl
    · unfold withQuery at hmem
      split at hmem
      · cases hmem
      · exact (List.mem_cons.mp hmem).elim (by decide) hquery
  rw [splitRest, (before_of_notMem hhash).1, (before_of_notMem hhash).2]
  by_cases hempty : query = []
  · rw [hempty, withQuery_nil, List.append_nil, (before_of_notMem hmark).1, (before_of_notMem hmark).2]
  · have hshown : withQuery query = '?' :: query := if_neg (by simpa using hempty)
    rw [hshown, (before_append_cons hmark query).1, (before_append_cons hmark query).2]

/-! ### Putting together -/

/-- The parts of an absolute URL without a fragment: its scheme has authorities, its path begins
with a slash. -/
structure SplitResult.Absolute (p : SplitResult) : Prop where
  scheme : IsScheme p.scheme
  authority : usesNetloc.contains (String.ofList p.scheme) = true
  root : p.path.head? = some '/'
  fragment : p.fragment = []

namespace SplitResult.Absolute
variable {p : SplitResult} (h : p.Absolute)
include h

theorem urlunsplit_eq : urlunsplit p = p.scheme ++ ':' :: '/' :: '/' :: (p.netloc ++ (p.path ++ withQuery p.query)) := by
  have hscheme : p.scheme.isEmpty = false := by
    cases hname : p.scheme with
    | nil =>
      have hhead := h.scheme.head
      rw [hname] at hhead
      cases hhead
    | cons c rest => rfl
  have hjoined : joinAuthority p = '/' :: '/' :: (p.netloc ++ p.path) := by
    rw [joinAuthority, h.root, h.authority, hscheme]
    by_cases hempty : p.netloc = []
    · simp [hempty]
    · simp [hempty]
  rw [urlunsplit, hjoined, hscheme, h.fragment, withQuery]
  cases hquery : p.query with
  | nil => simp
  | cons c rest => simp

theorem head_rest : (p.path ++ withQuery p.query).head? = some '/' := by
  rw [List.head?_append, h.root]
  rfl

end SplitResult.Absolute

/-- Two authorities with a path behind them are the same text if they are the same. -/
theorem authority_inj {a b rest rest' : List Char} (ha : '/' ∉ a) (hb : '/' ∉ b) (hrest : rest.head? = some '/')
    (hrest' : rest'.head? = some '/') (h : a ++ rest = b ++ rest') : a = b ∧ rest = rest' := by
  obtain ⟨tail, rfl⟩ := List.head?_eq_some_iff.mp hrest
  obtain ⟨tail', rfl⟩ := List.head?_eq_some_iff.mp hrest'
  have hsame : a = b := by
    rw [← (before_append_cons ha tail).1, h, (before_append_cons hb tail').1]
  rw [hsame] at h
  exact ⟨hsame, List.append_cancel_left h⟩

theorem withQuery_inj {query query' : List Char} (h : withQuery query = withQuery query') : query = query' := by
  cases query with
  | nil =>
    cases query' with
    | nil => rfl
    | cons c rest => cases h
  | cons c rest =>
    cases query' with
    | nil => cases h
    | cons c' rest' => exact List.cons_injective h

/-- What an absolute URL shows of authority, path and query is all there is to it. -/
theorem SplitResult.Absolute.urlunsplit_inj {p q : SplitResult} (hp : p.Absolute) (hq : q.Absolute)
    (hscheme : p.scheme = q.scheme) (hpslash : '/' ∉ p.netloc) (hqslash : '/' ∉ q.netloc)
    (h : urlunsplit p = urlunsplit q) : p.netloc = q.netloc ∧ p.path ++ withQuery p.query = q.path ++ withQuery q.query := by
  rw [hp.urlunsplit_eq, hq.urlunsplit_eq, hscheme] at h
  have hcut := List.append_cancel_left h
  simp only [List.cons.injEq, true_and] at hcut
  exact authority_inj hpslash hqslash hp.head_rest hq.head_rest hcut

/-- Parts that end where the next one begins, with nothing in them that is cleaned away. -/
structure SplitResult.Rooted (p : SplitResult) : Prop extends p.Clean, p.Absolute where
  netloc : ∀ c ∈ p.netloc, isNetlocEnd c = false ∧ isKept c = true

namespace SplitResult.Rooted
variable {p : SplitResult} (h : p.Rooted)
include h

theorem slash_notMem : '/' ∉ p.netloc := fun hmem => by
  have hend := (h.netloc _ hmem).1
  simp [isNetlocEnd] at hend

theorem kept : ∀ c ∈ p.path ++ withQuery p.query, isKept c = true := by
  intro c hc
  obtain hc | hc := List.mem_append.mp hc
  · exact (h.path c hc).1
  · unfold withQuery at hc
    split at hc
    · cases hc
    · obtain rfl | hc := List.mem_cons.mp hc
      · rfl
      · exact (h.query c hc).1

/-- **Such a URL is read as it was put together**, if its authority may be read at all. -/
theorem urlsplit_urlunsplit :
    urlsplit t (urlunsplit p) = if bracketsOk t p.netloc && netlocOk t p.netloc then some p else none := by
  have hend : ∀ c ∈ (p.path ++ withQuery p.query).head?, isNetlocEnd c = true := by
    intro c hc
    rw [h.toAbsolute.head_rest] at hc
    cases hc
    rfl
  have hparts : splitRest p.scheme p.netloc (p.path ++ withQuery p.query) = p := by
    rw [splitRest_withQuery (fun c hc => (h.path c hc).2) fun hmem => (h.query _ hmem).2 rfl]
    cases hp : p with
    | mk scheme netloc path query fragment =>
      have hfragment := h.fragment
      rw [hp] at hfragment
      cases hfragment
      rfl
  rw [h.toAbsolute.urlunsplit_eq, h.scheme.urlsplit_rest t h.netloc h.kept hend, hparts]

end SplitResult.Rooted

/-! ### White space at the end -/

theorem rdropWhile_append {p : Char → Bool} (s : List Char) {rest : List Char} {c : Char} (hc : c ∈ rest)
    (hp : p c = false) : (s ++ rest).rdropWhile p = s ++ rest.rdropWhile p := by
  have hnonempty : (rest.reverse.dropWhile p).isEmpty = false := by
    rw [Bool.eq_false_iff, ne_eq, List.isEmpty_iff, List.dropWhile_eq_nil_iff]
    intro hall
    rw [hall c (List.mem_reverse.mpr hc)] at hp
    cases hp
  rw [List.rdropWhile, List.reverse_append, List.dropWhile_append, hnonempty, if_neg Bool.false_ne_true,
    List.reverse_append, List.reverse_reverse]
  rfl

/-- Nothing is left to strip of what was stripped. -/
theorem strip_strip (s : List Char) : strip (strip s) = strip s := by
  have hhead : (strip s).dropWhile isSpace = strip s := by
    cases h : strip s with
    | nil => rfl
    | cons ch rest =>
      obtain ⟨tail, htail⟩ : ch :: rest <+: s.dropWhile isSpace := h ▸ List.rdropWhile_prefix _ _
      have hch := List.head?_dropWhile_not isSpace s
      rw [← htail] at hch
      simp only [List.cons_append, List.head?_cons] at hch
      exact List.dropWhile_cons_of_neg (by simp [hch])
  calc strip (strip s) = ((strip s).dropWhile isSpace).rdropWhile isSpace := rfl
    _ = (strip s).rdropWhile isSpace := by rw [hhead]
    _ = strip s := List.rdropWhile_idempotent _ _
/-- White space around a URL goes from its end only, and no further than its path. -/
theorem IsScheme.strip_rest {name : List Char} (hname : IsScheme name) (netloc : List Char) {rest : List Char}
    (hroot : rest.head? = some '/') :
    strip (name ++ ':' :: '/' :: '/' :: (netloc ++ rest)) =
      name ++ ':' :: '/' :: '/' :: (netloc ++ rest.rdropWhile isSpace) := by
  have hfront := hname.dropWhile_eq ('/' :: '/' :: (netloc ++ rest)) fun c hc => (hname.mem hc).2.2.1
  have hmem : '/' ∈ rest := List.mem_of_head? hroot
  have hassoc : ∀ tail : List Char, name ++ ':' :: '/' :: '/' :: (netloc ++ tail) =
      (name ++ ':' :: '/' :: '/' :: netloc) ++ tail := by simp
  rw [strip, hfront, hassoc, hassoc]
  exact rdropWhile_append _ hmem (by decide)

theorem head_rdropWhile {rest : List Char} {c : Char} (hroot : rest.head? = some c) {p : Char → Bool}
    (hp : p c = false) : (rest.rdropWhile p).head? = some c := by
  obtain ⟨tail, rfl⟩ := List.head?_eq_some_iff.mp hroot
  have hnonempty : (c :: tail).rdropWhile p ≠ [] := by
    rw [ne_eq, List.rdropWhile_eq_nil_iff]
    intro hall
    rw [hall c List.mem_cons_self] at hp
    cases hp
  obtain ⟨more, hmore⟩ := List.rdropWhile_prefix p (c :: tail)
  rw [← List.head?_append_of_ne_nil _ hnonempty, hmore]
  rfl

/-! ### Host and port -/

/-- A host as an authority shows it. -/
def bracketed (host : List Char) : List Char := if host.contains ':' then '[' :: host ++ [']'] else host

/-- The port part of an authority. -/
def withPort : Option Nat → List Char
  | some n => ':' :: (toString n).toList
  | none => []

theorem isDigit_toString {n : Nat} {c : Char} (h : c ∈ (toString n).toList) : isDigit c = true := by
  rw [Nat.toString_eq_ofList_toDigits, String.toList_ofList] at h
  exact Nat.isDigit_of_mem_toDigits (by decide) (by decide) h

theorem digits_toString (n : Nat) : SplitResult.digits (toString n).toList = n := by
  rw [Nat.toString_eq_ofList_toDigits, String.toList_ofList]
  exact Nat.ofDigitChars_ten_toDigits

theorem notMem_withPort {port : Option Nat} {c : Char} (hcolon : c ≠ ':') (hdigit : isDigit c = false) :
    c ∉ withPort port := by
  cases port with
  | none => exact List.not_mem_nil
  | some n =>
    intro hmem
    obtain hc | hc := List.mem_cons.mp hmem
    · exact hcolon hc
    · rw [isDigit_toString hc] at hdigit
      cases hdigit

theorem withPort_after (port : Option Nat) : withPort port = [] ∨ withPort port = ':' :: after ':' (withPort port) := by
  cases port with
  | none => exact .inl rfl
  | some n => exact .inr (by simp [withPort, after])

/-- Two hosts without a colon are told apart whatever ports follow. -/
theorem host_inj {host host' : List Char} {port port' : Option Nat} (hhost : ':' ∉ host) (hhost' : ':' ∉ host')
    (h : host ++ withPort port = host' ++ withPort port') : host = host' := by
  have hbefore : ∀ {host : List Char} (shown : Option Nat), ':' ∉ host → before ':' (host ++ withPort shown) = host := by
    intro host shown hno
    obtain hnone | hsome := withPort_after shown
    · rw [hnone, List.append_nil, (before_of_notMem hno).1]
    · rw [hsome, (before_append_cons hno _).1]
  rw [← hbefore port hhost, h, hbefore port' hhost']

/-- A port is read as it is written. -/
theorem port_of_rawPort {p : SplitResult} {port : Option Nat} (hport : ∀ n ∈ port, n ≤ 65535)
    (h : p.rawPort = after ':' (withPort port)) : p.port = some port := by
  cases port with
  | none =>
    have hnone : p.rawPort = [] := h
    rw [SplitResult.port, hnone]
    rfl
  | some n =>
    have hsome : p.rawPort = (toString n).toList := by
      rw [h]
      simp [withPort, after]
    have hdigits : (toString n).toList.all isDigit = true := List.all_eq_true.mpr fun c hc => isDigit_toString hc
    have hempty : (toString n).toList.isEmpty = false := by
      rw [Nat.toString_eq_ofList_toDigits, String.toList_ofList, Bool.eq_false_iff, ne_eq, List.isEmpty_iff]
      exact Nat.toDigits_ne_nil
    have hsmall : n ≤ 65535 := hport n rfl
    rw [SplitResult.port, hsome, hempty, hdigits, digits_toString]
    simp [hsmall]

variable (t)

/-- The brackets in which an authority shows a host are the only ones it reads. -/
structure ReadsBack (host : List Char) : Prop where
  address : ':' ∈ host → ']' ∉ host ∧ bracketedHostOk t host = true
  name : ':' ∉ host → '[' ∉ host ∧ ']' ∉ host

variable {t} {p : SplitResult} {host : List Char} {port : Option Nat}

theorem afterLast_authority (hat : '@' ∉ host) (hnetloc : p.netloc = bracketed host ++ withPort port) :
    afterLast '@' p.netloc = bracketed host ++ withPort port ∧ p.hasUserinfo = false := by
  have hshown : '@' ∉ p.netloc := by
    rw [hnetloc]
    intro hmem
    obtain hmem | hmem := List.mem_append.mp hmem
    · unfold bracketed at hmem
      split at hmem
      · simp [hat] at hmem
      · exact hat hmem
    · exact notMem_withPort (by decide) (by decide) hmem
  obtain ⟨hlast, hbefore⟩ := afterLast_of_notMem hshown
  refine ⟨hlast.trans hnetloc, ?_⟩
  rw [SplitResult.hasUserinfo, hbefore]
  rfl

theorem bracketed_address (h : ':' ∈ host) : bracketed host = '[' :: (host ++ [']']) := if_pos (by simpa using h)

theorem bracketed_name (h : ':' ∉ host) : bracketed host = host := if_neg (by simpa using h)

/-- **An authority whose brackets read back is read as the host and the port it shows.** -/
theorem ReadsBack.read (h : ReadsBack t host) (hat : '@' ∉ host) (hport : ∀ n ∈ port, n ≤ 65535)
    (hnetloc : p.netloc = bracketed host ++ withPort port) :
    bracketsOk t p.netloc = true ∧ p.rawHost = host ∧ p.port = some port := by
  obtain ⟨hlast, -⟩ := afterLast_authority hat hnetloc
  by_cases hcolon : ':' ∈ host
  · obtain ⟨hclose, hok⟩ := h.address hcolon
    have hshown : bracketed host ++ withPort port = '[' :: (host ++ ']' :: withPort port) := by
      rw [bracketed_address hcolon]
      simp
    rw [hshown] at hlast hnetloc
    have hopen : ('[' :: (host ++ ']' :: withPort port)).contains '[' = true := by simp
    have hinside : after '[' ('[' :: (host ++ ']' :: withPort port)) = host ++ ']' :: withPort port :=
      (before_append_cons (s := []) List.not_mem_nil _).2
    obtain ⟨hbefore, hafter⟩ := before_append_cons hclose (withPort port)
    refine ⟨?_, ?_, port_of_rawPort hport ?_⟩
    · have hstart : before '[' ('[' :: (host ++ ']' :: withPort port)) = [] :=
        (before_append_cons (s := []) List.not_mem_nil _).1
      have hend : ((withPort port).isEmpty || (withPort port).head? == some ':') = true := by
        obtain hnone | hsome := withPort_after port
        · rw [hnone]
          rfl
        · rw [hsome]
          rfl
      have hboth : ('[' :: (host ++ ']' :: withPort port)).contains ']' = true := by simp
      rw [bracketsOk, bracketedNetlocOk, hlast, hnetloc, hopen, hboth, if_pos rfl, hinside, hbefore, hafter, hstart]
      dsimp only
      rw [hend, hok]
      rfl
    · rw [SplitResult.rawHost, hlast, if_pos hopen, hinside, hbefore]
    · rw [SplitResult.rawPort, hlast, if_pos hopen, hinside, hafter]
  · obtain ⟨hopen, hclose⟩ := h.name hcolon
    rw [bracketed_name hcolon] at hlast hnetloc
    have hnone : ∀ c, c ≠ ':' → isDigit c = false → c ∉ host → (host ++ withPort port).contains c = false := by
      intro c hc hdigit hhost
      simpa [hhost] using notMem_withPort hc hdigit
    have hopened := hnone '[' (by decide) (by decide) hopen
    have hclosed := hnone ']' (by decide) (by decide) hclose
    have hread : before ':' (host ++ withPort port) = host ∧
        after ':' (host ++ withPort port) = after ':' (withPort port) := by
      rw [before_append, after_append, if_neg hcolon, if_neg hcolon]
      refine ⟨?_, rfl⟩
      cases port with
      | none => exact List.append_nil _
      | some n => simp [withPort, before]
    refine ⟨?_, ?_, port_of_rawPort hport ?_⟩
    · rw [bracketsOk, hnetloc, hopened, hclosed]
      rfl
    · rw [SplitResult.rawHost, hlast, if_neg (by rw [hopened]; decide), hread.1]
    · rw [SplitResult.rawPort, hlast, if_neg (by rw [hopened]; decide), hread.2]

/-- An authority that is read, its port too, either reads back or is in brackets that belong
to the host. -/
theorem readsBack_or (hat : '@' ∉ host) (hnetloc : p.netloc = bracketed host ++ withPort port)
    (hok : bracketsOk t p.netloc = true) (hread : p.port ≠ none) :
    ReadsBack t host ∨ (':' ∉ host ∧ '[' ∈ host ∧ p.rawHost ⊆ host ∧ p.rawHost.length < host.length) := by
  obtain ⟨hlast, -⟩ := afterLast_authority hat hnetloc
  by_cases hcolon : ':' ∈ host
  · have hshown : bracketed host ++ withPort port = '[' :: (host ++ ']' :: withPort port) := by
      rw [bracketed_address hcolon]
      simp
    rw [hshown] at hlast hnetloc
    have hopen : ('[' :: (host ++ ']' :: withPort port)).contains '[' = true := by simp
    have hboth : ('[' :: (host ++ ']' :: withPort port)).contains ']' = true := by simp
    have hinside : after '[' ('[' :: (host ++ ']' :: withPort port)) = host ++ ']' :: withPort port :=
      (before_append_cons (s := []) List.not_mem_nil _).2
    rw [bracketsOk, bracketedNetlocOk, hlast, hnetloc, hopen, hboth, if_pos rfl, hinside] at hok
    simp only [beq_self_eq_true, Bool.not_true, Bool.false_or, Bool.and_eq_true, Bool.or_eq_true, beq_iff_eq] at hok
    obtain ⟨-, ⟨-, hend⟩, hhost⟩ := hok
    have hclose : ']' ∉ host := by
      intro hclose
      -- What follows the first closing bracket would be the port, and holds another.
      have hafter : after ']' (host ++ ']' :: withPort port) = after ']' host ++ ']' :: withPort port := by
        rw [after_append, if_pos hclose]
      rw [hafter] at hend
      have hmem : ']' ∈ p.rawPort := by
        rw [SplitResult.rawPort, hlast, if_pos hopen, hinside, hafter]
        cases hrest : after ']' host with
        | nil =>
          rw [hrest] at hend
          simp at hend
        | cons c rest =>
          rw [hrest] at hend
          simp only [List.cons_append, List.isEmpty_cons, Bool.false_eq_true, List.head?_cons, Option.some.injEq,
            false_or] at hend
          subst hend
          simp [after]
      refine hread ?_
      have hempty : p.rawPort.isEmpty = false := by
        rw [Bool.eq_false_iff, ne_eq, List.isEmpty_iff]
        exact List.ne_nil_of_mem hmem
      have hdigits : p.rawPort.all isDigit = false := by
        rw [Bool.eq_false_iff, ne_eq, List.all_eq_true]
        intro hall
        exact absurd (hall _ hmem) (by decide)
      rw [SplitResult.port, hempty, hdigits]
      rfl
    rw [(before_append_cons hclose _).1] at hhost
    exact .inl ⟨fun _ => ⟨hclose, hhost⟩, fun hnot => absurd hcolon hnot⟩
  · rw [bracketed_name hcolon] at hlast hnetloc
    have hport : ∀ c, c ≠ ':' → isDigit c = false → c ∉ withPort port := fun c => notMem_withPort
    by_cases hopen : '[' ∈ host
    · have hopened : (host ++ withPort port).contains '[' = true := by simp [hopen]
      have hinside : after '[' (host ++ withPort port) = after '[' host ++ withPort port := by
        rw [after_append, if_pos hopen]
      rw [bracketsOk, bracketedNetlocOk, hlast, hnetloc, hopened, if_pos rfl, before_append, if_pos hopen] at hok
      simp only [Bool.true_beq, Bool.not_true, Bool.false_or, Bool.and_eq_true, List.isEmpty_iff] at hok
      obtain ⟨hclosed, ⟨hstart, -⟩, -⟩ := hok
      have hsplit := eq_before_after hopen
      rw [hstart, List.nil_append] at hsplit
      have hclose : ']' ∈ after '[' host := by
        have hmem : ']' ∈ host ++ withPort port := by simpa using hclosed
        obtain hmem | hmem := List.mem_append.mp hmem
        · rw [hsplit] at hmem
          exact (List.mem_cons.mp hmem).resolve_left (by decide)
        · exact absurd hmem (hport _ (by decide) (by decide))
      have hraw : p.rawHost = before ']' (after '[' host) := by
        rw [SplitResult.rawHost, hlast, if_pos hopened, hinside, before_append, if_pos hclose]
      rw [hraw]
      refine .inr ⟨hcolon, hopen, List.Subset.trans (before_subset _ _) (after_subset _ _), ?_⟩
      exact (length_before_lt hclose).trans (length_after_lt hopen)
    · have hopened : (host ++ withPort port).contains '[' = false := by
        simpa [hopen] using hport _ (by decide) (by decide)
      rw [bracketsOk, hnetloc, hopened] at hok
      have hclosed : (host ++ withPort port).contains ']' = false := by simpa using hok
      exact .inl ⟨fun hmem => absurd hmem hcolon, fun _ => ⟨hopen, fun hmem => by simp [hmem] at hclosed⟩⟩

end Lib.Url
