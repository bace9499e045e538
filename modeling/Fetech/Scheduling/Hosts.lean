import Fetech.Lib.Lists
import Fetech.Lib.PosixPath
import Fetech.Security.NormalForm

/-! The names hosts are scheduled under (`_normalize_host` in `fetech/scheduling.py`).

A host is an address, read and written by `ipaddress`, or a domain name in its IDNA form. What is
relied on of the platform is collected in `Codecs.HostIdna` and `IPAddresses.Documented`. A domain
name may come out of the codec as digits and dots; such a name is refused where it goes in, so
that it is its own normal form only if it is an address. -/
namespace Fetech.Scheduling
open Lib Lib.Url

/-- The module `ipaddress`: reading, the version and the rendering of an address. -/
structure IPAddresses (α : Type) where
  parse : List Char → Option α
  version : α → Nat
  compressed : α → List Char

variable {α : Type} (c : Codecs) (ip : IPAddresses α)

/-! ### The code -/

def isLabelEnd (ch : Char) : Bool := ('a' ≤ ch && ch ≤ 'z') || ('0' ≤ ch && ch ≤ '9')

/-- `_DOMAIN_LABEL.fullmatch(label)` -/
def isDomainLabel (label : List Char) : Bool :=
  label.length ≤ 63 && label.head?.any isLabelEnd && label.getLast?.any isLabelEnd &&
    label.all fun ch => isLabelEnd ch || ch == '-'

/-- `re.fullmatch(r"[0-9.]+", name)` -/
def isDotted (name : List Char) : Bool := !name.isEmpty && name.all fun ch => ('0' ≤ ch && ch ≤ '9') || ch == '.'

/-- The name in the host, and whether it stands in brackets. -/
def hostName (host : List Char) : Option (List Char × Bool) :=
  if host.head? = some '[' ∧ host.getLast? = some ']' then some (host.tail.dropLast, true)
  else if '[' ∈ host ∨ ']' ∈ host then none
  else if host.getLast? = some '.' then
    if host.dropLast.getLast? = some '.' then none else some (host.dropLast, false)
  else some (host, false)

def domainName (name : List Char) : Option (List Char) := do
  let encoded ← c.idna name
  let normalized := c.casefold encoded
  guard (normalized ≠ [] ∧ normalized.length ≤ 253 ∧ (normalized.splitOn '.').all isDomainLabel = true)
  return normalized

/-- `_normalize_host`; every refusal is the same `ValueError`. -/
def normalizeHost (host : List Char) : Option (List Char) := do
  guard (host ≠ [] ∧ host = strip host ∧ '%' ∉ host)
  let (name, bracketed) ← hostName host
  match ip.parse name with
  | some address =>
    guard ¬(bracketed = true ∧ ip.version address ≠ 6)
    return c.casefold (ip.compressed address)
  | none =>
    guard (bracketed = false ∧ ':' ∉ name ∧ isDotted name = false)
    domainName c name

/-! ### The platform -/

/-- The codec leaves the case of a name alone where the name is ASCII, and does not depend on it. -/
structure HostIdna (c : Codecs) : Prop extends c.Idna where
  case : ∀ {host host' : List Char}, c.lower host = c.lower host' → (c.idna host).map asciiLower = (c.idna host').map asciiLower

/-- A character an address is written with. -/
def isAddressChar (ch : Char) : Bool :=
  ('0' ≤ ch && ch ≤ '9') || ('a' ≤ ch && ch ≤ 'f') || ('A' ≤ ch && ch ≤ 'F') || ch == ':' || ch == '.'

/-- `ipaddress` as Python documents it, of addresses without a zone. An address of version 4 has one
spelling (leading zeros are not tolerated). -/
structure IPAddresses.Documented (ip : IPAddresses α) (c : Codecs) : Prop where
  parse_compressed : ∀ {s address}, '%' ∉ s → ip.parse s = some address → ip.parse (ip.compressed address) = some address
  compressed_chars : ∀ {s address}, '%' ∉ s → ip.parse s = some address →
    ip.compressed address ≠ [] ∧ asciiLower (ip.compressed address) = ip.compressed address ∧
      ∀ ch ∈ ip.compressed address, isAddressChar ch = true
  chars : ∀ {s address}, '%' ∉ s → ip.parse s = some address →
    s.getLast? ≠ some '.' ∧ ∀ ch ∈ s, isAddressChar ch = true
  one_spelling : ∀ {s address}, ':' ∉ s → ip.parse s = some address → ip.compressed address = s
  case : ∀ {s s' : List Char}, '%' ∉ s → '%' ∉ s' → c.lower s = c.lower s' → ip.parse s = ip.parse s'

/-! ### Spellings of a host -/

/-- Neither brackets nor a dot after the name. -/
def IsBare (host : List Char) : Prop := host.head? ≠ some '[' ∧ host.getLast? ≠ some '.'

/-- One spelling of a host and another. -/
inductive Respelling : List Char → List Char → Prop where
  | case {host host' : List Char} (hbare : IsBare host) (hbare' : IsBare host') (h : c.lower host = c.lower host') :
      Respelling host host'
  | trailingDot (host : List Char) : Respelling host (host ++ ['.'])
  | idna {host encoded : List Char} (hbare : IsBare host) (h : c.idna host = some encoded) : Respelling host encoded
  | brackets (host : List Char) : Respelling host ('[' :: host ++ [']'])
  | address {host host' : List Char} {address : α} (h : ip.parse host = some address)
      (h' : ip.parse host' = some address) : Respelling host host'

def Accepted (host : List Char) : Prop := (normalizeHost c ip host).isSome = true

/-- Spellings of one host, each of them accepted. -/
def SameHost : List Char → List Char → Prop :=
  Relation.EqvGen fun host host' => Accepted c ip host ∧ Accepted c ip host' ∧ Respelling c ip host host'

/-- A name other than of digits and dots that the codec turns into digits and dots, which are no address. -/
def Disguised (host : List Char) : Prop :=
  ∃ name encoded, hostName host = some (name, false) ∧ ip.parse name = none ∧ c.idna name = some encoded ∧
    isDotted encoded = true ∧ ip.parse encoded = none

variable {c ip}

/-! ### How a host is accepted -/

theorem hostName_eq_some {host name : List Char} {bracketed : Bool} (h : hostName host = some (name, bracketed)) :
    if bracketed = true then host = '[' :: name ++ [']']
    else '[' ∉ host ∧ ']' ∉ host ∧ name.getLast? ≠ some '.' ∧ (host = name ∨ host = name ++ ['.']) := by
  unfold hostName at h
  split at h
  · rename_i hbrackets
    cases h
    obtain ⟨hhead, hlast⟩ := hbrackets
    rw [if_pos rfl]
    cases host with
    | nil => cases hhead
    | cons ch rest =>
      cases hhead
      have hne : rest ≠ [] := by
        intro hnil
        rw [hnil] at hlast
        cases hlast
      rw [List.getLast?_cons_of_ne_nil hne, List.getLast?_eq_some_getLast hne, Option.some_inj] at hlast
      rw [List.tail_cons, List.cons_append, ← hlast, List.dropLast_append_getLast]
  · split at h
    · cases h
    · rename_i hplain
      obtain ⟨hopen, hclose⟩ := not_or.mp hplain
      split at h
      · rename_i hdot
        split at h
        · cases h
        · rename_i hlast
          cases h
          have hne : host ≠ [] := by
            intro hnil
            rw [hnil] at hdot
            cases hdot
          rw [List.getLast?_eq_some_getLast hne, Option.some_inj] at hdot
          refine ⟨hopen, hclose, hlast, .inr ?_⟩
          rw [← hdot, List.dropLast_append_getLast]
      · rename_i hlast
        cases h
        exact ⟨hopen, hclose, hlast, .inl rfl⟩

/-- A bare host without brackets is its own name. -/
theorem hostName_bare {host : List Char} (hopen : '[' ∉ host) (hclose : ']' ∉ host) (hlast : host.getLast? ≠ some '.') :
    hostName host = some (host, false) := by
  have hhead : ¬(host.head? = some '[' ∧ host.getLast? = some ']') := fun h => hopen (List.mem_of_head? h.1)
  rw [hostName, if_neg hhead, if_neg (not_or.mpr ⟨hopen, hclose⟩), if_neg hlast]

theorem domainName_eq_some {name normalized : List Char} (h : domainName c name = some normalized) :
    ∃ encoded, c.idna name = some encoded ∧ normalized = c.casefold encoded ∧ normalized ≠ [] ∧
      normalized.length ≤ 253 ∧ (normalized.splitOn '.').all isDomainLabel = true := by
  simp only [domainName, Option.bind_eq_bind, Option.bind_eq_some_iff, Option.guard_eq_some', Option.pure_def,
    Option.some.injEq] at h
  obtain ⟨encoded, hencoded, -, ⟨hne, hlength, hlabels⟩, rfl⟩ := h
  exact ⟨encoded, hencoded, rfl, hne, hlength, hlabels⟩

variable (c ip) in
/-- A host that is accepted, as it was read. -/
inductive Reading (host result : List Char) : Prop where
  | address (name : List Char) (bracketed : Bool) (address : α) (hname : hostName host = some (name, bracketed))
      (hparse : ip.parse name = some address) (hversion : bracketed = true → ip.version address = 6)
      (hresult : result = c.casefold (ip.compressed address))
  | domain (name : List Char) (hname : hostName host = some (name, false)) (hparse : ip.parse name = none)
      (hcolon : ':' ∉ name) (hdotted : isDotted name = false) (hresult : domainName c name = some result)

theorem normalizeHost_eq_some_iff {host result : List Char} : normalizeHost c ip host = some result ↔
    (host ≠ [] ∧ host = strip host ∧ '%' ∉ host) ∧ Reading c ip host result := by
  simp only [normalizeHost, Option.bind_eq_bind, Option.bind_eq_some_iff, Option.guard_eq_some']
  constructor
  · intro ⟨_, hhost, ⟨name, bracketed⟩, hname, h⟩
    refine ⟨hhost, ?_⟩
    dsimp only at h
    split at h
    · rename_i address hparse
      simp only [Option.bind_eq_some_iff, Option.guard_eq_some', Option.pure_def, Option.some.injEq] at h
      obtain ⟨_, hversion, rfl⟩ := h
      exact .address name bracketed address hname hparse (fun hb => not_not.mp fun hne => hversion ⟨hb, hne⟩) rfl
    · rename_i hparse
      simp only [Option.bind_eq_some_iff, Option.guard_eq_some'] at h
      obtain ⟨_, ⟨rfl, hcolon, hdotted⟩, h⟩ := h
      exact .domain name hname hparse hcolon hdotted h
  · intro ⟨hhost, h⟩
    cases h with
    | address name bracketed address hname hparse hversion hresult =>
      refine ⟨(), hhost, (name, bracketed), hname, ?_⟩
      simp only [hparse, Option.bind_eq_some_iff, Option.guard_eq_some', Option.pure_def, Option.some.injEq]
      exact ⟨(), fun hne => hne.2 (hversion hne.1), hresult.symm⟩
    | domain name hname hparse hcolon hdotted hresult =>
      refine ⟨(), hhost, (name, false), hname, ?_⟩
      simp only [hparse, Option.bind_eq_some_iff, Option.guard_eq_some']
      exact ⟨(), ⟨trivial, hcolon, hdotted⟩, hresult⟩

/-! ### What a normal form is made of -/

def isHostChar (ch : Char) : Bool := isAddressChar ch || isLabelEnd ch || ch == '-'

theorem hostChar_lt {ch : Char} (h : isHostChar ch = true) : ch.toNat < 128 := by
  have hle : ∀ {last : Char}, ch ≤ last → last.toNat < 128 → ch.toNat < 128 :=
    fun hle hlast => Nat.lt_of_le_of_lt hle hlast
  simp only [isHostChar, isAddressChar, isLabelEnd, Bool.or_eq_true, Bool.and_eq_true, decide_eq_true_eq, beq_iff_eq] at h
  obtain ((((((⟨-, h⟩ | ⟨-, h⟩) | ⟨-, h⟩) | rfl) | rfl) | (⟨-, h⟩ | ⟨-, h⟩)) | rfl) := h
  · exact hle h (by decide)
  · exact hle h (by decide)
  · exact hle h (by decide)
  · decide
  · decide
  · exact hle h (by decide)
  · exact hle h (by decide)
  · decide

/-- No such character is stripped, sets off a zone or stands for a bracket. -/
theorem hostChar_plain {ch : Char} (h : isHostChar ch = true) : isSpace ch = false ∧ ch ≠ '%' ∧ ch ≠ '[' ∧ ch ≠ ']' := by
  have hall : ∀ n < 128, isHostChar (Char.ofNat n) = true → isSpace (Char.ofNat n) = false ∧ Char.ofNat n ≠ '%' ∧
      Char.ofNat n ≠ '[' ∧ Char.ofNat n ≠ ']' := by decide +kernel
  have hch := hall ch.toNat (hostChar_lt h)
  rw [Char.ofNat_toNat] at hch
  exact hch h

theorem strip_eq_self {s : List Char} (h : ∀ ch ∈ s, isSpace ch = false) : strip s = s := by
  have hdrop : ∀ {t : List Char}, (∀ ch ∈ t, isSpace ch = false) → t.dropWhile isSpace = t := by
    intro t ht
    cases t with
    | nil => rfl
    | cons ch rest => exact List.dropWhile_cons_of_neg (by simp [ht ch List.mem_cons_self])
  rw [strip, hdrop h, hdrop fun ch hch => h ch (List.mem_reverse.mp hch), List.reverse_reverse]

/-- A text of such characters that does not end in a dot is read as it stands. -/
theorem reread {s : List Char} (hne : s ≠ []) (hchars : ∀ ch ∈ s, isHostChar ch = true) (hlast : s.getLast? ≠ some '.') :
    (s ≠ [] ∧ s = strip s ∧ '%' ∉ s) ∧ hostName s = some (s, false) := by
  have hplain := fun ch hch => hostChar_plain (hchars ch hch)
  refine ⟨⟨hne, (strip_eq_self fun ch hch => (hplain ch hch).1).symm, fun hmem => (hplain _ hmem).2.1 rfl⟩, ?_⟩
  exact hostName_bare (fun hmem => (hplain _ hmem).2.2.1 rfl) (fun hmem => (hplain _ hmem).2.2.2 rfl) hlast

theorem isDomainLabel_iff {label : List Char} : isDomainLabel label = true ↔
    label.length ≤ 63 ∧ label.head?.any isLabelEnd = true ∧ label.getLast?.any isLabelEnd = true ∧
      ∀ ch ∈ label, isLabelEnd ch = true ∨ ch = '-' := by
  simp only [isDomainLabel, Bool.and_eq_true, decide_eq_true_eq, List.all_eq_true, Bool.or_eq_true, beq_iff_eq, and_assoc]

/-- What the labels of a name say about the name. -/
structure IsName (s : List Char) : Prop where
  ne_nil : s ≠ []
  chars : ∀ ch ∈ s, isLabelEnd ch = true ∨ ch = '-' ∨ ch = '.'
  last : s.getLast? ≠ some '.'
  labels : labelsOk s = true

theorem isName_of_labels {s : List Char} (h : (s.splitOn '.').all isDomainLabel = true) : IsName s where
  ne_nil hnil := by
    subst hnil
    cases h
  chars ch hch := by
    have hs : ['.'].intercalate (s.splitOn '.') = s := List.intercalate_splitOn '.'
    rw [← hs] at hch
    obtain hdot | ⟨label, hlabel, hch⟩ := Lists.mem_intercalate hch
    · exact .inr (.inr (List.mem_singleton.mp hdot))
    · exact ((isDomainLabel_iff.mp (List.all_eq_true.mp h label hlabel)).2.2.2 ch hch).imp_right .inl
  last hlast := by
    obtain ⟨init, rfl⟩ := List.getLast?_eq_some_iff.mp hlast
    rw [List.splitOn_append_cons_self, List.splitOn_nil, List.all_append, Bool.and_eq_true] at h
    cases h.2
  labels := by
    rw [List.all_eq_true] at h
    rw [labelsOk, Bool.and_eq_true, List.all_eq_true, List.all_eq_true]
    refine ⟨fun label hlabel => ?_, fun label hlabel => ?_⟩
    · have hhead := (isDomainLabel_iff.mp (h label ((List.dropLast_sublist _).subset hlabel))).2.1
      cases label with
      | nil => cases hhead
      | cons ch rest => rfl
    · exact decide_eq_true (Nat.lt_succ_of_le (isDomainLabel_iff.mp (h label hlabel)).1)

/-- A character of a label is in lower case and no colon. -/
theorem labelChar_plain {ch : Char} (h : isLabelEnd ch = true ∨ ch = '-' ∨ ch = '.') :
    isHostChar ch = true ∧ ch ≠ ':' ∧ ch.toLower = ch ∧ ch.val < 128 := by
  have hhost : isHostChar ch = true := by
    obtain h | rfl | rfl := h
    · simp [isHostChar, h]
    · decide
    · decide
  have hall : ∀ n < 128, isLabelEnd (Char.ofNat n) = true ∨ Char.ofNat n = '-' ∨ Char.ofNat n = '.' →
      isHostChar (Char.ofNat n) = true ∧ Char.ofNat n ≠ ':' ∧ (Char.ofNat n).toLower = Char.ofNat n ∧
        (Char.ofNat n).val < 128 := by decide +kernel
  have hch := hall ch.toNat (hostChar_lt hhost)
  rw [Char.ofNat_toNat] at hch
  exact hch h

namespace IsName
variable {s : List Char} (h : IsName s)
include h

theorem colon : ':' ∉ s := fun hmem => (labelChar_plain (h.chars _ hmem)).2.1 rfl

theorem lower : asciiLower s = s :=
  (List.map_congr_left fun ch hch => (labelChar_plain (h.chars ch hch)).2.2.1).trans (List.map_id s)

theorem ascii : isAscii s = true :=
  List.all_eq_true.mpr fun ch hch => decide_eq_true (labelChar_plain (h.chars ch hch)).2.2.2

theorem reread : (s ≠ [] ∧ s = strip s ∧ '%' ∉ s) ∧ hostName s = some (s, false) :=
  Scheduling.reread h.ne_nil (fun ch hch => (labelChar_plain (h.chars ch hch)).1) h.last

end IsName

theorem mem_asciiLower_of_mem {s : List Char} {ch : Char} (h : ch ∈ s) (hlower : ch.toLower = ch) : ch ∈ asciiLower s :=
  List.mem_map.mpr ⟨ch, h, hlower⟩

/-- A bare host is its own name. -/
theorem IsBare.name_eq {host name : List Char} {bracketed : Bool} (hbare : IsBare host)
    (h : hostName host = some (name, bracketed)) : name = host ∧ bracketed = false := by
  have hname := hostName_eq_some h
  split at hname
  · rw [hname] at hbare
    exact absurd rfl hbare.1
  · rename_i hbracketed
    refine ⟨?_, Bool.eq_false_of_not_eq_true hbracketed⟩
    obtain hname | hname := hname.2.2.2
    · exact hname.symm
    · rw [hname] at hbare
      exact absurd List.getLast?_concat hbare.2

/-- The image of a host depends on its name only. -/
theorem image_eq_of_hostName {host host' result result' : List Char} (hname : hostName host = hostName host')
    (h : normalizeHost c ip host = some result) (h' : normalizeHost c ip host' = some result') : result = result' := by
  simp only [normalizeHost, Option.bind_eq_bind, Option.bind_eq_some_iff] at h h'
  obtain ⟨_, -, name, hread, h⟩ := h
  obtain ⟨_, -, name', hread', h'⟩ := h'
  rw [hname, hread', Option.some_inj] at hread
  subst hread
  exact Option.some.inj (h.symm.trans h')

section
variable (hc : HostIdna c) (hip : ip.Documented c)

include hip in
/-- The text of an address is a bare host. -/
theorem address_bare {s : List Char} {address : α} (hzone : '%' ∉ s) (h : ip.parse s = some address) :
    hostName s = some (s, false) := by
  obtain ⟨hlast, hchars⟩ := hip.chars hzone h
  have hplain : ∀ ch ∈ s, isHostChar ch = true := fun ch hch => by simp [isHostChar, hchars ch hch]
  exact hostName_bare (fun hmem => (hostChar_plain (hplain _ hmem)).2.2.1 rfl)
    (fun hmem => (hostChar_plain (hplain _ hmem)).2.2.2 rfl) hlast

include hip in
theorem casefold_compressed {s : List Char} {address : α} (hzone : '%' ∉ s) (h : ip.parse s = some address) :
    c.casefold (ip.compressed address) = ip.compressed address := by
  obtain ⟨-, hlower, hchars⟩ := hip.compressed_chars hzone h
  have hascii : isAscii (ip.compressed address) = true := by
    refine List.all_eq_true.mpr fun ch hch => decide_eq_true ?_
    have hhost : isHostChar ch = true := by simp [isHostChar, hchars ch hch]
    exact hostChar_lt hhost
  rw [c.casefold_ascii _ hascii, hlower]

include hip in
/-- The rendering of an address is its own normal form. -/
theorem address_again {s : List Char} {address : α} (hzone : '%' ∉ s) (h : ip.parse s = some address) :
    normalizeHost c ip (ip.compressed address) = some (ip.compressed address) := by
  obtain ⟨hne, -, hchars⟩ := hip.compressed_chars hzone h
  have hparse := hip.parse_compressed hzone h
  have hplain : ∀ ch ∈ ip.compressed address, isHostChar ch = true := fun ch hch => by simp [isHostChar, hchars ch hch]
  have hzone' : '%' ∉ ip.compressed address := fun hmem => (hostChar_plain (hplain _ hmem)).2.1 rfl
  obtain ⟨hguard, hname⟩ := reread hne hplain (hip.chars hzone' hparse).1
  exact normalizeHost_eq_some_iff.mpr
    ⟨hguard, .address _ _ address hname hparse (by simp) (casefold_compressed hip hzone h).symm⟩

include hc in
/-- What a domain name becomes. -/
theorem domain_image {name result : List Char} (h : domainName c name = some result) :
    IsName result ∧ ∃ encoded, c.idna name = some encoded ∧ isAscii encoded = true ∧ result = asciiLower encoded := by
  obtain ⟨encoded, hencoded, rfl, -, -, hlabels⟩ := domainName_eq_some h
  have hascii := hc.ascii hencoded
  exact ⟨isName_of_labels hlabels, encoded, hencoded, hascii, c.casefold_ascii _ hascii⟩

include hc hip in
/-- An ASCII name that is no address of version 6 becomes the name in lower case. -/
theorem image_of_ascii {name result : List Char} (hascii : isAscii name = true) (hbare : IsBare name) (hcolon : ':' ∉ name)
    (h : normalizeHost c ip name = some result) : result = asciiLower name := by
  obtain ⟨-, hread⟩ := normalizeHost_eq_some_iff.mp h
  cases hread with
  | address name' bracketed address hname hparse hversion hresult =>
    obtain ⟨rfl, -⟩ := hbare.name_eq hname
    rw [hresult, hip.one_spelling hcolon hparse, c.casefold_ascii _ hascii]
  | domain name' hname hparse hcolon' hdotted hresult =>
    obtain ⟨rfl, -⟩ := hbare.name_eq hname
    obtain ⟨-, encoded, hencoded, -, rfl⟩ := domain_image hc hresult
    rw [hc.ofAscii hascii, Option.ite_none_right_eq_some, Option.some_inj] at hencoded
    rw [hencoded.2]

end

/-! ### One image for all spellings -/

theorem zone_of_accepted {host result : List Char} (h : normalizeHost c ip host = some result) : '%' ∉ host :=
  (normalizeHost_eq_some_iff.mp h).1.2.2

theorem image_trailingDot {host result result' : List Char} (h : normalizeHost c ip host = some result)
    (h' : normalizeHost c ip (host ++ ['.']) = some result') : result = result' := by
  obtain ⟨name, bracketed, hname⟩ : ∃ name bracketed, hostName (host ++ ['.']) = some (name, bracketed) := by
    cases (normalizeHost_eq_some_iff.mp h').2 with
    | address name bracketed address hname => exact ⟨name, bracketed, hname⟩
    | domain name hname => exact ⟨name, false, hname⟩
  have hread := hostName_eq_some hname
  split at hread
  · have hlast := congrArg List.getLast? hread
    rw [List.getLast?_concat, List.getLast?_concat] at hlast
    cases hlast
  · rename_i hbracketed
    obtain ⟨hopen, hclose, hlast, heq | heq⟩ := hread
    · rw [← heq, List.getLast?_concat] at hlast
      exact absurd rfl hlast
    · have heq := List.append_cancel_right heq
      subst heq
      rw [Bool.eq_false_of_not_eq_true hbracketed] at hname
      have hbare := hostName_bare (fun hmem => hopen (List.mem_append_left _ hmem))
        (fun hmem => hclose (List.mem_append_left _ hmem)) hlast
      exact image_eq_of_hostName (hbare.trans hname.symm) h h'

section
variable (hc : HostIdna c) (hip : ip.Documented c)

include hip in
theorem image_brackets {host result result' : List Char} (h : normalizeHost c ip host = some result)
    (h' : normalizeHost c ip ('[' :: host ++ [']']) = some result') : result = result' := by
  obtain ⟨hguard, hread'⟩ := normalizeHost_eq_some_iff.mp h'
  have hname : hostName ('[' :: host ++ [']']) = some (host, true) := by
    rw [hostName, if_pos ⟨rfl, List.getLast?_concat⟩, List.cons_append, List.tail_cons, List.dropLast_concat]
  cases hread' with
  | address name bracketed address hname' hparse hversion hresult =>
    cases hname.symm.trans hname'
    have hbare := address_bare hip (zone_of_accepted h) hparse
    cases (normalizeHost_eq_some_iff.mp h).2 with
    | address name bracketed address' hname'' hparse' hversion' hresult' =>
      cases hbare.symm.trans hname''
      cases hparse.symm.trans hparse'
      rw [hresult, hresult']
    | domain name hname'' hparse' =>
      cases hbare.symm.trans hname''
      cases hparse.symm.trans hparse'
  | domain name hname' => cases hname.symm.trans hname'

include hip in
theorem image_address {host host' result result' : List Char} {address : α} (hparse : ip.parse host = some address)
    (hparse' : ip.parse host' = some address) (h : normalizeHost c ip host = some result)
    (h' : normalizeHost c ip host' = some result') : result = result' := by
  have hone : ∀ {host result : List Char}, ip.parse host = some address → normalizeHost c ip host = some result →
      result = c.casefold (ip.compressed address) := by
    intro host result hparse h
    have hbare := address_bare hip (zone_of_accepted h) hparse
    cases (normalizeHost_eq_some_iff.mp h).2 with
    | address name bracketed address' hname hparse' hversion hresult =>
      cases hbare.symm.trans hname
      cases hparse.symm.trans hparse'
      exact hresult
    | domain name hname hparse' =>
      cases hbare.symm.trans hname
      cases hparse.symm.trans hparse'
  exact (hone hparse h).trans (hone hparse' h').symm

include hc hip in
theorem image_case {host host' result result' : List Char} (hbare : IsBare host) (hbare' : IsBare host')
    (hlower : c.lower host = c.lower host') (h : normalizeHost c ip host = some result)
    (h' : normalizeHost c ip host' = some result') : result = result' := by
  have hparse := hip.case (zone_of_accepted h) (zone_of_accepted h') hlower
  cases (normalizeHost_eq_some_iff.mp h).2 with
  | address name bracketed address hname hparse₁ hversion hresult =>
    obtain ⟨rfl, -⟩ := hbare.name_eq hname
    exact image_address hip hparse₁ (hparse ▸ hparse₁) h h'
  | domain name hname hparse₁ hcolon hdotted hresult =>
    obtain ⟨rfl, -⟩ := hbare.name_eq hname
    cases (normalizeHost_eq_some_iff.mp h').2 with
    | address name' bracketed address hname' hparse₂ hversion hresult' =>
      obtain ⟨rfl, -⟩ := hbare'.name_eq hname'
      cases hparse₁.symm.trans (hparse.trans hparse₂)
    | domain name' hname' hparse₂ hcolon' hdotted' hresult' =>
      obtain ⟨rfl, -⟩ := hbare'.name_eq hname'
      obtain ⟨-, encoded, hencoded, -, rfl⟩ := domain_image hc hresult
      obtain ⟨-, encoded', hencoded', -, rfl⟩ := domain_image hc hresult'
      have hcase := hc.case hlower
      rw [hencoded, hencoded', Option.map_some, Option.map_some, Option.some_inj] at hcase
      exact hcase

include hc hip in
theorem image_idna {host encoded result result' : List Char} (hbare : IsBare host) (hencoded : c.idna host = some encoded)
    (h : normalizeHost c ip host = some result) (h' : normalizeHost c ip encoded = some result') : result = result' := by
  cases (normalizeHost_eq_some_iff.mp h).2 with
  | address name bracketed address hname hparse hversion hresult =>
    obtain ⟨rfl, -⟩ := hbare.name_eq hname
    have hascii : isAscii name = true := by
      refine List.all_eq_true.mpr fun ch hch => decide_eq_true ?_
      have hhost : isHostChar ch = true := by simp [isHostChar, (hip.chars (zone_of_accepted h) hparse).2 ch hch]
      exact hostChar_lt hhost
    rw [hc.ofAscii hascii, Option.ite_none_right_eq_some, Option.some_inj] at hencoded
    rw [← hencoded.2] at h'
    exact Option.some.inj (h.symm.trans h')
  | domain name hname hparse hcolon hdotted hresult =>
    obtain ⟨rfl, -⟩ := hbare.name_eq hname
    obtain ⟨hresult, encoded', hencoded', hascii, rfl⟩ := domain_image hc hresult
    cases hencoded.symm.trans hencoded'
    have hencodedBare : IsBare encoded := by
      constructor
      · intro hhead
        have hmem := mem_asciiLower_of_mem (List.mem_of_head? hhead) (by decide)
        exact (hostChar_plain (labelChar_plain (hresult.chars _ hmem)).1).2.2.1 rfl
      · intro hlast
        refine hresult.last ?_
        rw [asciiLower, List.getLast?_map, hlast]
        rfl
    have hencodedColon : ':' ∉ encoded := fun hmem => hresult.colon (mem_asciiLower_of_mem hmem (by decide))
    exact (image_of_ascii hc hip hascii hencodedBare hencodedColon h').symm

include hc hip in
/-- **A respelling does not change the image.** -/
theorem Respelling.same_image {host host' result result' : List Char} (hspelling : Respelling c ip host host')
    (h : normalizeHost c ip host = some result) (h' : normalizeHost c ip host' = some result') : result = result' := by
  cases hspelling with
  | case hbare hbare' hlower => exact image_case hc hip hbare hbare' hlower h h'
  | trailingDot => exact image_trailingDot h h'
  | idna hbare hencoded => exact image_idna hc hip hbare hencoded h h'
  | brackets => exact image_brackets hip h h'
  | address hparse hparse' => exact image_address hip hparse hparse' h h'

include hc hip in
/-- Spellings of one host have one image. -/
theorem SameHost.same_image {host host' : List Char} (h : SameHost c ip host host') :
    normalizeHost c ip host = normalizeHost c ip host' := by
  induction h with
  | rel host host' h =>
    obtain ⟨haccepted, haccepted', hspelling⟩ := h
    obtain ⟨result, hresult⟩ := Option.isSome_iff_exists.mp haccepted
    obtain ⟨result', hresult'⟩ := Option.isSome_iff_exists.mp haccepted'
    rw [hresult, hresult', hspelling.same_image hc hip hresult hresult']
  | refl host => rfl
  | symm host host' _ ih => exact ih.symm
  | trans host host' host'' _ _ ih ih' => exact ih.trans ih'

end

/-! ### When a normal form is normal -/

theorem dotted_char {s : List Char} (h : isDotted s = true) {ch : Char} (hch : ch ∈ s) :
    ('0' ≤ ch ∧ ch ≤ '9') ∨ ch = '.' := by
  rw [isDotted, Bool.and_eq_true, List.all_eq_true] at h
  simpa using h.2 ch hch

theorem asciiLower_of_dotted {s : List Char} (h : isDotted s = true) : asciiLower s = s := by
  refine (List.map_congr_left fun ch hch => ?_).trans (List.map_id s)
  have hlabel : isLabelEnd ch = true ∨ ch = '-' ∨ ch = '.' :=
    (dotted_char h hch).imp (fun hdigit => by simp [isLabelEnd, hdigit.1, hdigit.2]) .inr
  exact (labelChar_plain hlabel).2.2.1

/-- A text is digits and dots only if it is in lower case already. -/
theorem asciiLower_eq_of_dotted {s : List Char} (h : isDotted (asciiLower s) = true) : asciiLower s = s := by
  refine (List.map_congr_left fun ch hch => ?_).trans (List.map_id s)
  have hsmall : ch.toLower.val < 97 := by
    obtain ⟨-, hle⟩ | hdot := dotted_char h (List.mem_map_of_mem hch)
    · exact UInt32.lt_of_le_of_lt hle (by decide)
    · rw [hdot]
      decide
  exact (eq_of_toLower_eq rfl (.inl hsmall)).symm

/-- A name of labels becomes itself, unless it is digits and dots. -/
theorem domainName_again {name result : List Char} (hc : HostIdna c) (h : domainName c name = some result) :
    domainName c result = some result := by
  obtain ⟨hresult, -⟩ := domain_image hc h
  obtain ⟨encoded, -, -, hne, hlength, hlabels⟩ := domainName_eq_some h
  have hidna : c.idna result = some result := by rw [hc.ofAscii hresult.ascii, if_pos hresult.labels]
  have hfold : c.casefold result = result := by rw [c.casefold_ascii _ hresult.ascii, hresult.lower]
  simp only [domainName, hidna, Option.bind_eq_bind, Option.bind_some, hfold, Option.bind_eq_some_iff,
    Option.guard_eq_some', Option.pure_def]
  exact ⟨(), ⟨hne, hlength, hlabels⟩, trivial⟩

section
variable (hc : HostIdna c) (hip : ip.Documented c)
include hc hip

/-- A normal form is normal unless the host was disguised. -/
theorem normal_iff {host result : List Char} (h : normalizeHost c ip host = some result) :
    normalizeHost c ip result = some result ↔ ¬Disguised c ip host := by
  obtain ⟨hguard, hread⟩ := normalizeHost_eq_some_iff.mp h
  cases hread with
  | address name bracketed address hname hparse hversion hresult =>
    have hzone : '%' ∉ name := by
      have hname' := hostName_eq_some hname
      intro hmem
      split at hname'
      · exact hguard.2.2 (hname' ▸ List.mem_cons_of_mem _ (List.mem_append_left _ hmem))
      · obtain heq | heq := hname'.2.2.2
        · exact hguard.2.2 (heq ▸ hmem)
        · exact hguard.2.2 (heq ▸ List.mem_append_left _ hmem)
    rw [hresult, casefold_compressed hip hzone hparse]
    refine iff_of_true (address_again hip hzone hparse) ?_
    intro hdisguised
    obtain ⟨name', encoded, hname', hnone, _⟩ := hdisguised
    cases hname.symm.trans hname'
    cases hparse.symm.trans hnone
  | domain name hname hparse hcolon hdotted hresult =>
    obtain ⟨himage, encoded, hencoded, -, heq⟩ := domain_image hc hresult
    obtain ⟨hguard', hname'⟩ := himage.reread
    constructor
    · intro hagain hdisguised
      obtain ⟨name', encoded', hname'', _, hencoded', hdots, hnone⟩ := hdisguised
      cases hname.symm.trans hname''
      cases hencoded.symm.trans hencoded'
      rw [asciiLower_of_dotted hdots] at heq
      subst heq
      cases (normalizeHost_eq_some_iff.mp hagain).2 with
      | address name bracketed address hname₁ hparse₁ =>
        cases hname'.symm.trans hname₁
        cases hnone.symm.trans hparse₁
      | domain name hname₁ hparse₁ hcolon₁ hdotted₁ =>
        cases hname'.symm.trans hname₁
        exact Bool.false_ne_true (hdotted₁.symm.trans hdots)
    · intro hplain
      refine normalizeHost_eq_some_iff.mpr ⟨hguard', ?_⟩
      cases hparse' : ip.parse result with
      | some address =>
        refine .address result false address hname' hparse' (by simp) ?_
        rw [hip.one_spelling himage.colon hparse', c.casefold_ascii _ himage.ascii, himage.lower]
      | none =>
        refine .domain result hname' hparse' himage.colon ?_ (domainName_again hc hresult)
        refine Bool.eq_false_of_not_eq_true fun hdots => hplain ⟨name, encoded, hname, hparse, hencoded, ?_⟩
        rw [heq] at hdots hparse'
        have hlower := asciiLower_eq_of_dotted hdots
        rw [hlower] at hdots hparse'
        exact ⟨hdots, hparse'⟩

/-- **The name a host is scheduled under is canonical** unless the host is disguised: it is its own
normal form, and all spellings of the host have it. -/
theorem normalizeHost_canonical_iff {host result : List Char} (h : normalizeHost c ip host = some result) :
    (normalizeHost c ip result = some result ∧ ∀ host' result', SameHost c ip host host' →
      normalizeHost c ip host' = some result' → result' = result) ↔ ¬Disguised c ip host := by
  have hsame : ∀ host' result', SameHost c ip host host' → normalizeHost c ip host' = some result' → result' = result := by
    intro host' result' hsame h'
    rw [← hsame.same_image hc hip, h] at h'
    exact (Option.some.inj h').symm
  rw [and_iff_left hsame]
  exact normal_iff hc hip h

end

/-! ### Two hosts -/

/-- `ipaddress` on texts none of which is an address. -/
def noAddresses : IPAddresses Empty where
  parse _ := none
  version address := nomatch address
  compressed address := nomatch address

theorem noAddresses_documented (c : Codecs) : noAddresses.Documented c where
  parse_compressed _ h := nomatch h
  compressed_chars _ h := nomatch h
  chars _ h := nomatch h
  one_spelling _ h := nomatch h
  case _ _ _ := rfl

theorem labelsOk_asciiLower (s : List Char) : labelsOk (asciiLower s) = labelsOk s := by
  have hdot : ∀ ch : Char, ch.toLower = '.' ↔ ch = '.' := by
    intro ch
    constructor
    · exact fun h => eq_of_toLower_eq h (.inl (by decide))
    · rintro rfl
      decide
  have hempty : ∀ label : List Char, (label.map Char.toLower).isEmpty = label.isEmpty := by
    intro label
    cases label with
    | nil => rfl
    | cons ch rest => rfl
  unfold labelsOk asciiLower
  rw [splitOn_map hdot, ← List.map_dropLast, List.all_map, List.all_map]
  simp only [Function.comp_def, hempty, List.length_map]

theorem plainCodecs_hostIdna : HostIdna plainCodecs where
  toIdna := plainCodecs_idna
  case {host host'} h := by
    have h : asciiLower host = asciiLower host' := h
    have hascii : isAscii host = isAscii host' := by
      rw [Bool.eq_iff_iff]
      constructor
      · intro hhost
        exact isAscii_of_asciiLower (h ▸ isAscii_asciiLower hhost)
      · intro hhost
        exact isAscii_of_asciiLower (h ▸ isAscii_asciiLower hhost)
    have hlabels : labelsOk host = labelsOk host' := by
      rw [← labelsOk_asciiLower host, h, labelsOk_asciiLower]
    show (if isAscii host && labelsOk host then some host else none).map asciiLower =
      (if isAscii host' && labelsOk host' then some host' else none).map asciiLower
    rw [hascii, hlabels]
    split
    · exact congrArg some h
    · rfl

/-- A name in capitals with a dot after it. -/
theorem normalizeHost_canonical_capitals :
    normalizeHost plainCodecs noAddresses "EXAMPLE.COM.".toList = some "example.com".toList ∧
      normalizeHost plainCodecs noAddresses "example.com".toList = some "example.com".toList := by
  have h : normalizeHost plainCodecs noAddresses "EXAMPLE.COM.".toList = some "example.com".toList := by decide +kernel
  have hplain : ¬Disguised plainCodecs noAddresses "EXAMPLE.COM.".toList := by
    intro ⟨name, encoded, hname, _, hencoded, hdots, _⟩
    have hname' : hostName "EXAMPLE.COM.".toList = some ("EXAMPLE.COM".toList, false) := by decide +kernel
    cases hname'.symm.trans hname
    have hencoded' : plainCodecs.idna "EXAMPLE.COM".toList = some "EXAMPLE.COM".toList := by decide +kernel
    cases hencoded'.symm.trans hencoded
    revert hdots
    decide +kernel
  exact ⟨h, ((normalizeHost_canonical_iff plainCodecs_hostIdna (noAddresses_documented _) h).mpr hplain).1⟩

/-- A codec that knows ASCII and the wide digits, which it writes as the narrow ones. -/
def wideDigitCodecs : Codecs :=
  {plainCodecs with idna := fun host =>
    plainCodecs.idna (host.map fun ch => if 0xff10 ≤ ch.val ∧ ch.val ≤ 0xff19 then Char.ofNat (ch.toNat - 0xff10 + 0x30) else ch)}

/-- A host of wide digits comes out as digits with a leading zero, which are refused. -/
theorem wide_digits_not_normal :
    normalizeHost wideDigitCodecs noAddresses "０１０.0.0.1".toList = some "010.0.0.1".toList ∧
      normalizeHost wideDigitCodecs noAddresses "010.0.0.1".toList = none := by
  decide +kernel

end Fetech.Scheduling
