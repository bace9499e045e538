import Mathlib.Data.List.Basic

/-! URLs as Python's `urllib.parse` takes them apart and puts them together.

A URL is a list of characters. What Python reads off the Unicode tables and from its
address parser is collected in `Tables`; everything else is computed here, in the
order and with the leniencies of the library (leading blanks and line breaks
dropped, an empty port is no port, a scheme only if every character of it may occur
in one). `none` stands for the `ValueError` of the library. -/
namespace Lib.Url

def isAscii (s : List Char) : Bool := s.all fun c => c.val < 128

def asciiLower (s : List Char) : List Char := s.map Char.toLower

theorem isAscii_of_asciiLower {s : List Char} (h : isAscii (asciiLower s) = true) : isAscii s = true := by
  refine List.all_eq_true.mpr fun c hc => ?_
  have hlower : c.toLower.val < 128 := by
    simpa using List.all_eq_true.mp h c.toLower (List.mem_map_of_mem hc)
  rw [decide_eq_true_eq]
  unfold Char.toLower at hlower
  split at hlower
  · rename_i hupper
    exact UInt32.lt_of_le_of_lt hupper.2 (by decide)
  · exact hlower

theorem isAscii_asciiLower {s : List Char} (h : isAscii s = true) : isAscii (asciiLower s) = true := by
  refine List.all_eq_true.mpr fun c hc => ?_
  obtain ⟨d, hd, rfl⟩ := List.mem_map.mp hc
  have hascii : d.val < 128 := by simpa using List.all_eq_true.mp h d hd
  rw [decide_eq_true_eq]
  unfold Char.toLower
  split
  · rename_i hupper
    have h1 : (65 : Nat) ≤ d.val.toNat := hupper.1
    have h2 : d.val.toNat ≤ 90 := hupper.2
    show (d.val + 32).toNat < 128
    rw [UInt32.toNat_add]
    have h3 : (32 : UInt32).toNat = 32 := rfl
    omega
  · exact hascii

/-- Lower case is lower case already. -/
theorem toLower_toLower (c : Char) : c.toLower.toLower = c.toLower := by
  have hnot : ∀ d : Char, ¬(d.val ≥ 'A'.val ∧ d.val ≤ 'Z'.val) → d.toLower = d := by
    intro d hd
    unfold Char.toLower
    rw [dif_neg hd]
  by_cases h : c.val ≥ 'A'.val ∧ c.val ≤ 'Z'.val
  · refine hnot _ ?_
    have hval : c.toLower.val = c.val + 32 := by
      unfold Char.toLower
      rw [dif_pos h]
      rfl
    rw [hval]
    have h1 : (65 : Nat) ≤ c.val.toNat := h.1
    have h2 : c.val.toNat ≤ 90 := h.2
    rintro ⟨-, h3⟩
    have h4 : (c.val + 32).toNat ≤ 90 := h3
    rw [UInt32.toNat_add] at h4
    have h5 : (32 : UInt32).toNat = 32 := rfl
    omega
  · exact congrArg Char.toLower (hnot c h)

theorem asciiLower_asciiLower (s : List Char) : asciiLower (asciiLower s) = asciiLower s := by
  rw [asciiLower, asciiLower, List.map_map]
  exact List.map_congr_left fun c _ => toLower_toLower c

/-- What the library takes from elsewhere: lower case and the compatibility normal
form of Unicode text, and which texts are IPv6 addresses. -/
structure Tables where
  lower : List Char → List Char
  lower_ascii : ∀ s, isAscii s = true → lower s = asciiLower s
  nfkc : List Char → List Char
  isIPv6 : List Char → Bool

/-! ### Cutting text at a character -/

/-- `s.partition(c)[0]`. -/
def before (c : Char) (s : List Char) : List Char := s.takeWhile (· != c)

/-- `s.partition(c)[2]`. -/
def after (c : Char) (s : List Char) : List Char := (s.dropWhile (· != c)).tail

/-- `s.rpartition(c)[0]`. -/
def beforeLast (c : Char) (s : List Char) : List Char :=
  if s.contains c then (after c s.reverse).reverse else []

/-- `s.rpartition(c)[2]`. -/
def afterLast (c : Char) (s : List Char) : List Char := (before c s.reverse).reverse

def isDigit (c : Char) : Bool := '0' ≤ c && c ≤ '9'

def isAlpha (c : Char) : Bool := ('a' ≤ c && c ≤ 'z') || ('A' ≤ c && c ≤ 'Z')

def isHex (c : Char) : Bool := isDigit c || ('a' ≤ c && c ≤ 'f') || ('A' ≤ c && c ≤ 'F')

/-- `scheme_chars`. -/
def isSchemeChar (c : Char) : Bool := isAlpha c || isDigit c || c == '+' || c == '-' || c == '.'

theorem isAscii_of_isSchemeChar {s : List Char} (h : s.all isSchemeChar = true) : isAscii s = true := by
  refine List.all_eq_true.mpr fun c hc => ?_
  have hchar := List.all_eq_true.mp h c hc
  simp only [isSchemeChar, isAlpha, isDigit, Bool.or_eq_true, Bool.and_eq_true, decide_eq_true_eq, beq_iff_eq] at hchar
  rw [decide_eq_true_eq]
  rcases hchar with ((((⟨-, hle⟩ | ⟨-, hle⟩) | ⟨-, hle⟩) | rfl) | rfl) | rfl
  · exact UInt32.lt_of_le_of_lt hle (by decide)
  · exact UInt32.lt_of_le_of_lt hle (by decide)
  · exact UInt32.lt_of_le_of_lt hle (by decide)
  · decide
  · decide
  · decide

/-- What `str.strip` strips. -/
def isSpace (c : Char) : Bool :=
  (9 ≤ c.val && c.val ≤ 13) || (28 ≤ c.val && c.val ≤ 32) || c.val == 0x85 || c.val == 0xa0 ||
    c.val == 0x1680 || (0x2000 ≤ c.val && c.val ≤ 0x200a) || c.val == 0x2028 || c.val == 0x2029 ||
    c.val == 0x202f || c.val == 0x205f || c.val == 0x3000

def strip (s : List Char) : List Char := ((s.dropWhile isSpace).reverse.dropWhile isSpace).reverse

/-- `s.rstrip(c)`. -/
def rstrip (c : Char) (s : List Char) : List Char := (s.reverse.dropWhile (· == c)).reverse

/-! ### Splitting -/

structure SplitResult where
  scheme : List Char
  netloc : List Char
  path : List Char
  query : List Char
  fragment : List Char
  deriving DecidableEq, Repr

variable (t : Tables)

/-- Leading C0 controls and spaces go, and tabs and line breaks anywhere. -/
def clean (url : List Char) : List Char :=
  (url.dropWhile fun c => c.val ≤ 32).filter fun c => c != '\t' && c != '\r' && c != '\n'

/-- The scheme, if there is one, and what follows it. -/
def splitScheme (default url : List Char) : List Char × List Char :=
  let name := before ':' url
  if url.contains ':' && (name.head?.map isAlpha).getD false && name.all isSchemeChar then
    (asciiLower name, after ':' url)
  else (default, url)

def isNetlocEnd (c : Char) : Bool := c == '/' || c == '?' || c == '#'

/-- `_check_bracketed_host`. -/
def bracketedHostOk (host : List Char) : Bool :=
  match host with
  | 'v' :: rest =>
    let version := rest.takeWhile isHex
    let tail := rest.dropWhile isHex
    !version.isEmpty && tail.head? == some '.' && !tail.tail.isEmpty && !tail.tail.contains '\n'
  | _ => t.isIPv6 host

/-- `_check_bracketed_netloc`. -/
def bracketedNetlocOk (netloc : List Char) : Bool :=
  let hostPort := afterLast '@' netloc
  if hostPort.contains '[' then
    let port := after ']' (after '[' hostPort)
    (before '[' hostPort).isEmpty && (port.isEmpty || port.head? == some ':') &&
      bracketedHostOk t (before ']' (after '[' hostPort))
  else bracketedHostOk t (before ':' hostPort)

/-- The bracket checks of `urlsplit`. -/
def bracketsOk (netloc : List Char) : Bool :=
  (netloc.contains '[' == netloc.contains ']') && (!netloc.contains '[' || bracketedNetlocOk t netloc)

/-- `_checknetloc`: no character of the authority may stand for a delimiter. -/
def netlocOk (netloc : List Char) : Bool :=
  isAscii netloc ||
    (let n := netloc.filter fun c => c != '@' && c != ':' && c != '#' && c != '?'
     t.nfkc n == n || !(t.nfkc n).any fun c => c == '/' || c == '?' || c == '#' || c == '@' || c == ':')

def urlsplit (url : List Char) (default : List Char := []) : Option SplitResult :=
  let (scheme, rest) := splitScheme default (clean url)
  let authority := match rest with
    | '/' :: '/' :: _ => true
    | _ => false
  let netloc := if authority then (rest.drop 2).takeWhile (!isNetlocEnd ·) else []
  let rest := if authority then (rest.drop 2).dropWhile (!isNetlocEnd ·) else rest
  if bracketsOk t netloc && netlocOk t netloc then
    some {
      scheme, netloc
      path := before '?' (before '#' rest)
      query := after '?' (before '#' rest)
      fragment := after '#' rest }
  else none

/-- The authority, if the text begins with two slashes, and what follows it. -/
def splitAuthority : List Char → List Char × List Char
  | '/' :: '/' :: rest => (rest.takeWhile (!isNetlocEnd ·), rest.dropWhile (!isNetlocEnd ·))
  | rest => ([], rest)

/-- What remains after the authority, taken apart. -/
def splitRest (scheme netloc rest : List Char) : SplitResult where
  scheme := scheme
  netloc := netloc
  path := before '?' (before '#' rest)
  query := after '?' (before '#' rest)
  fragment := after '#' rest

/-- `urlsplit`, one part after the other. -/
theorem urlsplit_eq (url default : List Char) : urlsplit t url default =
    let head := splitScheme default (clean url)
    let authority := splitAuthority head.2
    if bracketsOk t authority.1 && netlocOk t authority.1 then some (splitRest head.1 authority.1 authority.2)
    else none := by
  unfold urlsplit splitAuthority
  dsimp only
  split
  · rename_i heq
    simp only [heq, if_true, List.drop_succ_cons, List.drop_zero]
    rfl
  · rfl

theorem splitAuthority_of_head {rest : List Char} (h : rest.head? ≠ some '/') : splitAuthority rest = ([], rest) := by
  unfold splitAuthority
  split
  · simp at h
  · rfl

namespace SplitResult

/-- `parts.username or parts.password`. -/
def hasUserinfo (p : SplitResult) : Bool :=
  let userinfo := beforeLast '@' p.netloc
  !(before ':' userinfo).isEmpty || !(after ':' userinfo).isEmpty

/-- The host as written, brackets off. -/
def rawHost (p : SplitResult) : List Char :=
  let hostinfo := afterLast '@' p.netloc
  if hostinfo.contains '[' then before ']' (after '[' hostinfo) else before ':' hostinfo

/-- The port as written. -/
def rawPort (p : SplitResult) : List Char :=
  let hostinfo := afterLast '@' p.netloc
  if hostinfo.contains '[' then after ':' (after ']' (after '[' hostinfo)) else after ':' hostinfo

/-- Lower case but for a zone; empty where Python has `None`. -/
def hostname (p : SplitResult) : List Char :=
  let host := p.rawHost
  if host.contains '%' then t.lower (before '%' host) ++ '%' :: after '%' host else t.lower host

def digits (s : List Char) : Nat := s.foldl (fun n c => 10 * n + (c.toNat - '0'.toNat)) 0

/-- `none`: the port is not a number up to 65535. `some none`: there is none. -/
def port (p : SplitResult) : Option (Option Nat) :=
  if p.rawPort.isEmpty then some none
  else if p.rawPort.all isDigit && digits p.rawPort ≤ 65535 then some (some (digits p.rawPort))
  else none

end SplitResult

/-! ### Where the characters of a part come from -/

theorem before_subset (c : Char) (s : List Char) : before c s ⊆ s := (List.takeWhile_sublist _).subset

theorem after_subset (c : Char) (s : List Char) : after c s ⊆ s :=
  ((List.tail_sublist _).trans (List.dropWhile_sublist _)).subset

theorem afterLast_subset (c : Char) (s : List Char) : afterLast c s ⊆ s := fun _ hx =>
  List.mem_reverse.mp (before_subset c s.reverse (List.mem_reverse.mp hx))

theorem clean_subset (url : List Char) : clean url ⊆ url := fun _ hx =>
  (List.dropWhile_sublist _).subset (List.mem_of_mem_filter hx)

theorem splitScheme_subset (url : List Char) :
    (∀ c ∈ (splitScheme [] url).1, ∃ d ∈ url, c = d.toLower) ∧ (splitScheme [] url).2 ⊆ url := by
  unfold splitScheme
  dsimp only
  split
  · refine ⟨fun c hc => ?_, after_subset ':' url⟩
    obtain ⟨d, hd, rfl⟩ := List.mem_map.mp hc
    exact ⟨d, before_subset ':' url hd, rfl⟩
  · refine ⟨fun c hc => ?_, List.Subset.refl url⟩
    cases hc

theorem splitAuthority_subset (rest : List Char) : (splitAuthority rest).1 ⊆ rest ∧ (splitAuthority rest).2 ⊆ rest := by
  have hcons : ∀ rest : List Char, rest ⊆ '/' :: '/' :: rest := fun rest =>
    List.Subset.trans (List.subset_cons_self _ _) (List.subset_cons_self _ _)
  unfold splitAuthority
  split
  · rename_i rest
    exact ⟨List.Subset.trans (List.takeWhile_sublist _).subset (hcons rest),
      List.Subset.trans (List.dropWhile_sublist _).subset (hcons rest)⟩
  · exact ⟨List.nil_subset _, List.Subset.refl _⟩

theorem urlsplit_subset {url : List Char} {p : SplitResult} (h : urlsplit t url = some p) :
    (∀ c ∈ p.scheme, ∃ d ∈ url, c = d.toLower) ∧ p.netloc ⊆ url ∧ p.path ⊆ url := by
  rw [urlsplit_eq] at h
  simp only [Option.ite_none_right_eq_some, Option.some.injEq] at h
  obtain ⟨-, rfl⟩ := h
  obtain ⟨hscheme, hrest⟩ := splitScheme_subset (clean url)
  obtain ⟨hnetloc, hpath⟩ := splitAuthority_subset (splitScheme [] (clean url)).2
  have hclean := List.Subset.trans hrest (clean_subset url)
  refine ⟨fun c hc => ?_, List.Subset.trans hnetloc hclean, ?_⟩
  · obtain ⟨d, hd, rfl⟩ := hscheme c hc
    exact ⟨d, clean_subset url hd, rfl⟩
  · exact List.Subset.trans (before_subset '?' _) (List.Subset.trans (before_subset '#' _) (List.Subset.trans hpath hclean))

namespace SplitResult

theorem rawHost_subset (p : SplitResult) : p.rawHost ⊆ p.netloc := by
  have hinfo := afterLast_subset '@' p.netloc
  unfold rawHost
  dsimp only
  split
  · exact List.Subset.trans (before_subset ']' _) (List.Subset.trans (after_subset '[' _) hinfo)
  · exact List.Subset.trans (before_subset ':' _) hinfo

end SplitResult

/-! ### A URL with a query -/

/-- Not a tab or a line break, which `urlsplit` takes out. -/
def isKept (c : Char) : Bool := c != '\t' && c != '\r' && c != '\n'

theorem clean_query (url rest : List Char) : clean (url ++ '?' :: rest) = clean url ++ '?' :: rest.filter isKept := by
  have hdrop : (url ++ '?' :: rest).dropWhile (fun c => decide (c.val ≤ 32)) =
      url.dropWhile (fun c => decide (c.val ≤ 32)) ++ '?' :: rest := by
    induction url with
    | nil => rfl
    | cons c url ih =>
      simp only [List.cons_append, List.dropWhile_cons]
      split
      · exact ih
      · rfl
  rw [clean, hdrop, List.filter_append]
  rfl

theorem before_append (c : Char) (s rest : List Char) :
    before c (s ++ rest) = if c ∈ s then before c s else s ++ before c rest := by
  induction s with
  | nil => simp
  | cons d s ih =>
    by_cases hd : d = c
    · simp [before, hd]
    · have hne : (d != c) = true := by simpa using hd
      have hcd : c ≠ d := fun h => hd h.symm
      simp only [before] at ih ⊢
      simp only [List.cons_append, List.takeWhile_cons, hne, if_true, ih, List.mem_cons, hcd, false_or]
      split <;> rfl

theorem after_append (c : Char) (s rest : List Char) :
    after c (s ++ rest) = if c ∈ s then after c s ++ rest else after c rest := by
  induction s with
  | nil => simp
  | cons d s ih =>
    by_cases hd : d = c
    · simp [after, hd]
    · have hne : (d != c) = true := by simpa using hd
      have hcd : c ≠ d := fun h => hd h.symm
      simp only [after] at ih ⊢
      simp only [List.cons_append, List.dropWhile_cons, hne, if_true, ih, List.mem_cons, hcd, false_or]

theorem splitScheme_query (url rest : List Char) :
    splitScheme [] (url ++ '?' :: rest) = ((splitScheme [] url).1, (splitScheme [] url).2 ++ '?' :: rest) := by
  unfold splitScheme
  rw [before_append, after_append]
  by_cases hcolon : ':' ∈ url
  · have hwhole : (url ++ '?' :: rest).contains ':' = true := by simp [hcolon]
    have hurl : url.contains ':' = true := by simpa using hcolon
    simp only [hwhole, hurl, if_pos hcolon, Bool.true_and]
    split <;> rfl
  · have hurl : url.contains ':' = false := by simpa using hcolon
    -- A scheme cannot go past the question mark.
    have hname : (url ++ before ':' ('?' :: rest)).all isSchemeChar = false := by
      simp [before, isSchemeChar, isAlpha, isDigit]
    simp only [if_neg hcolon, hname, hurl, Bool.and_false, Bool.false_and, Bool.false_eq_true, if_false]

theorem splitAuthority_query (url rest : List Char) :
    splitAuthority (url ++ '?' :: rest) = ((splitAuthority url).1, (splitAuthority url).2 ++ '?' :: rest) := by
  match url with
  | [] => rfl
  | [c] =>
    rw [splitAuthority.eq_def, splitAuthority.eq_def]
    simp only [List.cons_append, List.nil_append]
    split
    · rename_i heq
      cases heq
    · rfl
  | c :: d :: url =>
    by_cases hslash : c = '/' ∧ d = '/'
    · obtain ⟨rfl, rfl⟩ := hslash
      have htake : ∀ s : List Char, (s ++ '?' :: rest).takeWhile (!isNetlocEnd ·) = s.takeWhile (!isNetlocEnd ·) ∧
          (s ++ '?' :: rest).dropWhile (!isNetlocEnd ·) = s.dropWhile (!isNetlocEnd ·) ++ '?' :: rest := by
        intro s
        induction s with
        | nil => exact ⟨rfl, rfl⟩
        | cons e s ih =>
          by_cases he : isNetlocEnd e = true
          · simp [he]
          · simpa [he] using ih
      simp only [List.cons_append, splitAuthority, (htake url).1, (htake url).2]
    · have hplain : ∀ s : List Char, splitAuthority (c :: d :: s) = ([], c :: d :: s) := by
        intro s
        rw [splitAuthority.eq_def]
        split
        · rename_i heq
          simp only [List.cons.injEq] at heq
          exact absurd ⟨heq.1, heq.2.1⟩ hslash
        · rfl
      rw [List.cons_append, List.cons_append, hplain, hplain]
      rfl

/-- What stands before a question mark decides over scheme and authority. -/
theorem urlsplit_query (url rest : List Char) : urlsplit t (url ++ '?' :: rest) =
    let head := splitScheme [] (clean url)
    let authority := splitAuthority head.2
    if bracketsOk t authority.1 && netlocOk t authority.1 then
      some (splitRest head.1 authority.1 (authority.2 ++ '?' :: rest.filter isKept))
    else none := by
  rw [urlsplit_eq, clean_query, splitScheme_query]
  dsimp only
  rw [splitAuthority_query]

/-! ### A URL that begins with its scheme -/

theorem scheme_of_urlsplit {url default : List Char} {parts : SplitResult} (h : urlsplit t url default = some parts) :
    parts.scheme = (splitScheme default (clean url)).1 := by
  simp only [urlsplit, Option.ite_none_right_eq_some, Option.some.injEq] at h
  obtain ⟨-, rfl⟩ := h
  rfl

/-- A scheme as `urlsplit` recognises it, in lower case. -/
structure IsScheme (name : List Char) : Prop where
  head : (name.head?.map isAlpha).getD false = true
  chars : name.all isSchemeChar = true
  lower : asciiLower name = name
  plain : name.all (fun c => 32 < c.val && c != ':' && !isSpace c && c.val < 128) = true

namespace IsScheme
variable {name : List Char} (h : IsScheme name)
include h

theorem mem {c : Char} (hc : c ∈ name) : 32 < c.val ∧ c ≠ ':' ∧ isSpace c = false ∧ c.val < 128 := by
  have hplain := List.all_eq_true.mp h.plain c hc
  simpa [and_assoc] using hplain

theorem isAscii : isAscii name = true :=
  List.all_eq_true.mpr fun c hc => by simpa using (h.mem hc).2.2.2

theorem before_colon (rest : List Char) : before ':' (name ++ ':' :: rest) = name := by
  have hall : ∀ c ∈ name, (c != ':') = true := fun c hc => by simpa using (h.mem hc).2.1
  rw [before, List.takeWhile_append_of_pos hall]
  simp

/-- Dropping what no character of a scheme is leaves such a URL alone. -/
theorem dropWhile_eq {p : Char → Bool} (rest : List Char) (hp : ∀ c ∈ name, p c = false) :
    (name ++ ':' :: rest).dropWhile p = name ++ ':' :: rest := by
  cases hname : name with
  | nil =>
    have hhead := h.head
    simp [hname] at hhead
  | cons c cs =>
    have hc : p c = false := hp c (by rw [hname]; exact List.mem_cons_self ..)
    exact List.dropWhile_cons_of_neg (by simp [hc])

/-- No character of a scheme is cleaned away. -/
theorem uncleaned (c : Char) (hc : c ∈ name) : (c != '\t' && c != '\r' && c != '\n') = true := by
  have hbig := (h.mem hc).1
  have hne : ∀ d : Char, d.val ≤ 32 → c ≠ d := by
    rintro d hd rfl
    exact absurd hbig (UInt32.not_lt.mpr hd)
  simp [hne '\t' (by decide), hne '\r' (by decide), hne '\n' (by decide)]

theorem clean_eq (rest : List Char) : ∃ rest', clean (name ++ ':' :: rest) = name ++ ':' :: rest' := by
  have hdrop := h.dropWhile_eq (p := fun c => decide (c.val ≤ 32)) rest fun c hc => by simpa using (h.mem hc).1
  have hkept : name.filter (fun c => c != '\t' && c != '\r' && c != '\n') = name :=
    List.filter_eq_self.mpr h.uncleaned
  refine ⟨rest.filter (fun c => c != '\t' && c != '\r' && c != '\n'), ?_⟩
  rw [clean, hdrop, List.filter_append, hkept]
  rfl

theorem strip_eq (rest : List Char) : ∃ rest', strip (name ++ ':' :: rest) = name ++ ':' :: rest' := by
  have hfront := h.dropWhile_eq rest fun c hc => (h.mem hc).2.2.1
  have hback : (':' :: name.reverse).dropWhile isSpace = ':' :: name.reverse := List.dropWhile_cons_of_neg (by decide)
  rw [strip, hfront, List.reverse_append, List.reverse_cons, List.append_assoc, List.dropWhile_append]
  split
  · exact ⟨[], by simp [hback]⟩
  · exact ⟨(rest.reverse.dropWhile isSpace).reverse, by simp⟩

/-- The scheme of a URL that begins with it. -/
theorem urlsplit_scheme {rest : List Char} {parts : SplitResult} (hparts : urlsplit t (name ++ ':' :: rest) = some parts) :
    parts.scheme = name := by
  obtain ⟨rest', hclean⟩ := h.clean_eq rest
  have hcolon : (name ++ ':' :: rest').contains ':' = true := by simp
  have hsplit : splitScheme [] (name ++ ':' :: rest') = (name, after ':' (name ++ ':' :: rest')) := by
    simp only [splitScheme, h.before_colon, hcolon, h.head, h.chars, Bool.and_self, if_true, h.lower]
  rw [scheme_of_urlsplit t hparts, hclean, hsplit]

end IsScheme

theorem before_of_notMem {c : Char} {s : List Char} (h : c ∉ s) : before c s = s ∧ after c s = [] := by
  induction s with
  | nil => exact ⟨rfl, rfl⟩
  | cons d rest ih =>
    obtain ⟨hne, hrest⟩ := not_or.mp (List.mem_cons.not.mp h)
    obtain ⟨hbefore, hafter⟩ := ih hrest
    have hd : (d != c) = true := by simpa using Ne.symm hne
    constructor
    · simp only [before, List.takeWhile_cons, hd, if_true]
      exact congrArg (d :: ·) hbefore
    · simp only [after, List.dropWhile_cons, hd, if_true]
      exact hafter

theorem eq_before_after {c : Char} {s : List Char} (h : c ∈ s) : s = before c s ++ c :: after c s := by
  induction s with
  | nil => cases h
  | cons d rest ih =>
    by_cases hd : d = c
    · simp [before, after, hd]
    · have hne : (d != c) = true := by simpa using hd
      have hrest : c ∈ rest := (List.mem_cons.mp h).resolve_left fun hc => hd hc.symm
      simp only [before, after, List.takeWhile_cons, List.dropWhile_cons, hne, if_true, List.cons_append]
      exact congrArg (d :: ·) (ih hrest)

/-- The authority `urlsplit` reads ends before the path and holds nothing that is cleaned away. -/
theorem netloc_of_urlsplit {url default : List Char} {parts : SplitResult} (h : urlsplit t url default = some parts) :
    bracketsOk t parts.netloc = true ∧ netlocOk t parts.netloc = true ∧
      ∀ c ∈ parts.netloc, isNetlocEnd c = false ∧ (c != '\t' && c != '\r' && c != '\n') = true := by
  simp only [urlsplit, Option.ite_none_right_eq_some, Option.some.injEq, Bool.and_eq_true] at h
  obtain ⟨⟨hbrackets, hnetloc⟩, rfl⟩ := h
  refine ⟨hbrackets, hnetloc, fun c hc => ?_⟩
  dsimp only at hc
  split at hc
  · have hend := List.all_eq_true.mp List.all_takeWhile c hc
    refine ⟨by simpa using hend, ?_⟩
    have hrest : c ∈ (splitScheme default (clean url)).2 := List.mem_of_mem_drop ((List.takeWhile_sublist _).mem hc)
    have hclean : c ∈ clean url := by
      unfold splitScheme at hrest
      dsimp only at hrest
      split at hrest
      · exact ((List.dropWhile_sublist _).mem (List.mem_of_mem_tail hrest))
      · exact hrest
    exact (List.mem_filter.mp hclean).2
  · cases hc

/-- A URL with a scheme and an authority is read with them, whatever follows the authority. -/
theorem IsScheme.urlsplit_rest {name : List Char} (hname : IsScheme name) {netloc rest : List Char}
    (hnetloc : ∀ c ∈ netloc, isNetlocEnd c = false ∧ isKept c = true) (hrest : ∀ c ∈ rest, isKept c = true)
    (hend : ∀ c ∈ rest.head?, isNetlocEnd c = true) :
    urlsplit t (name ++ ':' :: '/' :: '/' :: (netloc ++ rest)) =
      if bracketsOk t netloc && netlocOk t netloc then some (splitRest name netloc rest) else none := by
  have hdrop := hname.dropWhile_eq (p := fun c => decide (c.val ≤ 32)) ('/' :: '/' :: (netloc ++ rest))
    fun c hc => by simpa using (hname.mem hc).1
  have hclean : clean (name ++ ':' :: '/' :: '/' :: (netloc ++ rest)) = name ++ ':' :: '/' :: '/' :: (netloc ++ rest) := by
    rw [clean, hdrop]
    refine List.filter_eq_self.mpr fun c hc => ?_
    simp only [List.mem_append, List.mem_cons] at hc
    obtain hc | rfl | rfl | rfl | hc | hc := hc
    · exact hname.uncleaned c hc
    · decide
    · decide
    · decide
    · exact (hnetloc c hc).2
    · exact hrest c hc
  have hcolon : (name ++ ':' :: '/' :: '/' :: (netloc ++ rest)).contains ':' = true := by simp
  have hafter : after ':' (name ++ ':' :: '/' :: '/' :: (netloc ++ rest)) = '/' :: '/' :: (netloc ++ rest) := by
    have hall : ∀ c ∈ name, (c != ':') = true := fun c hc => by simpa using (hname.mem hc).2.1
    rw [after, List.dropWhile_append_of_pos hall]
    simp
  have hsplit : splitScheme [] (name ++ ':' :: '/' :: '/' :: (netloc ++ rest)) =
      (name, '/' :: '/' :: (netloc ++ rest)) := by
    simp only [splitScheme, hname.before_colon, hcolon, hname.head, hname.chars, Bool.and_self, if_true, hname.lower,
      hafter]
  have hinside : ∀ c ∈ netloc, (!isNetlocEnd c) = true := fun c hc => by simp [(hnetloc c hc).1]
  have hauthority : splitAuthority ('/' :: '/' :: (netloc ++ rest)) = (netloc, rest) := by
    rw [splitAuthority, List.takeWhile_append_of_pos hinside, List.dropWhile_append_of_pos hinside]
    cases rest with
    | nil => simp
    | cons c rest => simp [hend c rfl]
  rw [urlsplit_eq, hclean, hsplit]
  dsimp only
  rw [hauthority]

/-- Another path at the scheme and authority of a URL. -/
theorem IsScheme.urlsplit_site {name : List Char} (hname : IsScheme name) {url default : List Char}
    {parts : SplitResult} (h : urlsplit t url default = some parts) {path : List Char}
    (hpath : ∀ c ∈ path, (c != '\t' && c != '\r' && c != '\n') = true ∧ (c != '#') = true ∧ (c != '?') = true) :
    urlsplit t (name ++ ':' :: '/' :: '/' :: (parts.netloc ++ '/' :: path)) =
      some {scheme := name, netloc := parts.netloc, path := '/' :: path, query := [], fragment := []} := by
  obtain ⟨hbrackets, hnetloc, hchars⟩ := netloc_of_urlsplit t h
  have hkept : ∀ c ∈ '/' :: path, isKept c = true := by
    intro c hc
    obtain rfl | hc := List.mem_cons.mp hc
    · rfl
    · exact (hpath c hc).1
  have hend : ∀ c ∈ ('/' :: path).head?, isNetlocEnd c = true := by
    intro c hc
    cases hc
    rfl
  have hhash : '#' ∉ '/' :: path := fun hmem =>
    (List.mem_cons.mp hmem).elim (by decide) fun hc => by simpa using (hpath '#' hc).2.1
  have hquery : '?' ∉ '/' :: path := fun hmem =>
    (List.mem_cons.mp hmem).elim (by decide) fun hc => by simpa using (hpath '?' hc).2.2
  rw [hname.urlsplit_rest t hchars hkept hend, hbrackets, hnetloc, splitRest, (before_of_notMem hhash).1,
    (before_of_notMem hhash).2, (before_of_notMem hquery).1, (before_of_notMem hquery).2]
  rfl

theorem isScheme_http : IsScheme "http".toList := by constructor <;> decide

theorem isScheme_https : IsScheme "https".toList := by constructor <;> decide

/-! ### Joining -/

def usesRelative : List String :=
  ["", "ftp", "http", "gopher", "nntp", "imap", "wais", "file", "https", "shttp", "mms", "prospero", "rtsp",
    "rtsps", "rtspu", "sftp", "svn", "svn+ssh", "ws", "wss"]

def usesNetloc : List String :=
  ["", "ftp", "http", "gopher", "nntp", "telnet", "imap", "wais", "file", "mms", "https", "shttp", "snews",
    "prospero", "rtsp", "rtsps", "rtspu", "rsync", "svn", "svn+ssh", "sftp", "nfs", "git", "git+ssh", "ws",
    "wss", "itms-services"]

def usesParams : List String :=
  ["", "ftp", "hdl", "prospero", "http", "imap", "https", "shttp", "rtsp", "rtsps", "rtspu", "sip", "sips",
    "mms", "sftp", "tel"]

/-- The authority and the path, two slashes before them where there has to be an authority. -/
def joinAuthority (p : SplitResult) : List Char :=
  if !p.netloc.isEmpty then
    '/' :: '/' :: p.netloc ++ (if !p.path.isEmpty && p.path.head? != some '/' then '/' :: p.path else p.path)
  else if p.path.take 2 == ['/', '/'] then '/' :: '/' :: p.path
  else if !p.scheme.isEmpty && usesNetloc.contains (String.ofList p.scheme) &&
      (p.path.isEmpty || p.path.head? == some '/') then '/' :: '/' :: p.path
  else p.path

/-- The query part of a URL that is put together. -/
def withQuery (query : List Char) : List Char := if query.isEmpty then [] else '?' :: query

def urlunsplit (p : SplitResult) : List Char :=
  let url := joinAuthority p
  let url := if p.scheme.isEmpty then url else p.scheme ++ ':' :: url
  let url := if p.query.isEmpty then url else url ++ '?' :: p.query
  if p.fragment.isEmpty then url else url ++ '#' :: p.fragment

theorem urlunsplit_eq {p : SplitResult} (h : p.scheme ≠ []) : ∃ rest, urlunsplit p = p.scheme ++ ':' :: rest := by
  have hscheme : p.scheme.isEmpty = false := by simpa using h
  have hgrow : ∀ (tail : List Char) (c : Char) (more : List Char),
      ∃ rest, (if more.isEmpty then p.scheme ++ ':' :: tail else (p.scheme ++ ':' :: tail) ++ c :: more) =
        p.scheme ++ ':' :: rest := by
    intro tail c more
    split
    · exact ⟨tail, rfl⟩
    · exact ⟨tail ++ c :: more, by simp⟩
  simp only [urlunsplit, hscheme, Bool.false_eq_true, if_false]
  obtain ⟨rest, hquery⟩ := hgrow _ '?' p.query
  rw [hquery]
  exact hgrow rest '#' p.fragment

/-- `_splitparams` of a path whose last segment holds a semicolon: the path and the
parameters; a path without one has no parameters. -/
def splitParams (path : List Char) : List Char × List Char :=
  let last := afterLast '/' path
  if last.contains ';' then
    (path.take (path.length - last.length) ++ before ';' last, after ';' last)
  else (path, [])

def withParams (path params : List Char) : List Char :=
  if params.isEmpty then path else path ++ ';' :: params

/-- Dot segments resolved against what stands before them. -/
def resolveSegments (segments : List (List Char)) : List (List Char) :=
  let resolved := segments.foldl (fun acc seg =>
    if seg = ['.', '.'] then acc.dropLast else if seg = ['.'] then acc else acc ++ [seg]) []
  match segments.getLast? with
  | some ['.'] => resolved ++ [[]]
  | some ['.', '.'] => resolved ++ [[]]
  | _ => resolved

/-- Empty segments between the first and the last go. -/
def dropEmptyInner : List (List Char) → List (List Char)
  | [] => []
  | [s] => [s]
  | s :: rest => s :: (rest.dropLast.filter (!·.isEmpty) ++ (rest.getLast?.map ([·])).getD [])

def joinSegments (segments : List (List Char)) : List Char := (segments.intersperse ['/']).flatten

def mergePath (basePath path : List Char) : List Char :=
  let baseParts := basePath.splitOn '/'
  let baseParts := if baseParts.getLast? == some [] then baseParts else baseParts.dropLast
  let segments := if path.head? == some '/' then path.splitOn '/'
    else dropEmptyInner (baseParts ++ path.splitOn '/')
  let joined := joinSegments (resolveSegments segments)
  if joined.isEmpty then ['/'] else joined

def urljoin (base url : List Char) : Option (List Char) := do
  if base.isEmpty then return url
  if url.isEmpty then return base
  let b ← urlsplit t base
  let u ← urlsplit t url b.scheme
  let scheme := String.ofList u.scheme
  let (bpath, bparams) := if usesParams.contains (String.ofList b.scheme) then splitParams b.path else (b.path, [])
  let (path, params) := if usesParams.contains scheme then splitParams u.path else (u.path, [])
  if u.scheme != b.scheme || !usesRelative.contains scheme then return url
  if usesNetloc.contains scheme && !u.netloc.isEmpty then
    return urlunsplit {u with path := withParams path params}
  let netloc := if usesNetloc.contains scheme then b.netloc else u.netloc
  if path.isEmpty && params.isEmpty then
    return urlunsplit {u with
      netloc, path := withParams bpath bparams
      query := if u.query.isEmpty then b.query else u.query}
  return urlunsplit {u with netloc, path := withParams (mergePath bpath path) params}

end Lib.Url
