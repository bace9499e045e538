import Mathlib.Data.Bool.AllAny
import Fetech.Security.NormalForm
import Fetech.Wayback

/-! Captures that are named by an availability answer, and the check of what was fetched from there
(`fetech/wayback.py`, `_parse_availability` and `_validate_capture_url`).

The locator written anew is read part by part as it was written, so the lenient check of the answer's
own locator says all that the strict one asks but for the time: that is read from digits of any script
and written in ASCII. -/
namespace Fetech.Wayback
open Lib Lib.Except Connector Url

/-! ### Times -/

section
variable {φ : Type} {p : Platform φ}

/-- A digit is written as it was read if it is an ASCII one. -/
theorem digit_eq_iff {ch : Char} {n : Nat} (h : p.decimal ch = some n) : Char.ofNat (48 + n) = ch ↔ isDigit ch = true := by
  have hle := p.decimal_le ch n h
  constructor
  · intro hch
    rw [← hch]
    interval_cases n <;> decide
  · intro hdigit
    have hbounds := hdigit
    simp only [isDigit, Bool.and_eq_true, decide_eq_true_eq] at hbounds
    have hlow : 48 ≤ ch.toNat := hbounds.1
    have hhigh : ch.toNat ≤ 57 := hbounds.2
    have hascii : ch.val < 128 := by
      show ch.toNat < 128
      omega
    have hvalue := (p.decimal_ascii ch hascii).symm.trans h
    rw [if_pos hdigit] at hvalue
    cases hvalue
    have hback : 48 + (ch.toNat - '0'.toNat) = ch.toNat := by
      show 48 + (ch.toNat - 48) = ch.toNat
      omega
    rw [hback, Char.ofNat_toNat]

theorem int_pair {a b : Char} {n : Nat} (h : p.int [a, b] = some n) :
    ∃ x y, p.decimal a = some x ∧ p.decimal b = some y ∧ n = 10 * x + y := by
  simp only [Platform.int, List.foldlM_cons, List.foldlM_nil, Option.bind_eq_bind, Option.bind_eq_some_iff,
    Option.map_eq_some_iff, Option.pure_def, Option.some.injEq] at h
  obtain ⟨_, ⟨x, hx, rfl⟩, _, ⟨y, hy, rfl⟩, rfl⟩ := h
  exact ⟨x, y, hx, hy, by omega⟩

theorem int_four {a b c d : Char} {n : Nat} (h : p.int [a, b, c, d] = some n) :
    ∃ high low, p.int [a, b] = some high ∧ p.int [c, d] = some low ∧ n = 100 * high + low := by
  simp only [Platform.int, List.foldlM_cons, List.foldlM_nil, Option.bind_eq_bind, Option.bind_eq_some_iff,
    Option.map_eq_some_iff, Option.pure_def, Option.some.injEq] at h ⊢
  obtain ⟨_, ⟨w, hw, rfl⟩, _, ⟨x, hx, rfl⟩, _, ⟨y, hy, rfl⟩, _, ⟨z, hz, rfl⟩, rfl⟩ := h
  refine ⟨10 * w + x, 10 * y + z, ⟨_, ⟨w, hw, rfl⟩, _, ⟨x, hx, rfl⟩, by omega⟩, ⟨_, ⟨y, hy, rfl⟩, _, ⟨z, hz, rfl⟩, by omega⟩, ?_⟩
  omega

/-- A number of two digits is written as it was read if these are ASCII. -/
theorem twoDigits_eq_iff {a b : Char} {n : Nat} (h : p.int [a, b] = some n) :
    twoDigits n = [a, b] ↔ isDigit a = true ∧ isDigit b = true := by
  obtain ⟨x, y, hx, hy, rfl⟩ := int_pair h
  have hlow := p.decimal_le a x hx
  have hhigh := p.decimal_le b y hy
  have htens : (10 * x + y) / 10 % 10 = x := by omega
  have hones : (10 * x + y) % 10 = y := by omega
  rw [twoDigits, htens, hones, List.cons.injEq, List.cons.injEq, digit_eq_iff hx, digit_eq_iff hy]
  simp

/-- Only the last two digits of a number matter. -/
theorem twoDigits_add (high low : Nat) : twoDigits (100 * high + low) = twoDigits low := by
  have htens : (100 * high + low) / 10 % 10 = low / 10 % 10 := by omega
  have hones : (100 * high + low) % 10 = low % 10 := by omega
  rw [twoDigits, twoDigits, htens, hones]

theorem int_pair_lt {a b : Char} {n : Nat} (h : p.int [a, b] = some n) : n < 100 := by
  obtain ⟨x, y, hx, hy, rfl⟩ := int_pair h
  have hlow := p.decimal_le a x hx
  have hhigh := p.decimal_le b y hy
  omega

/-- A timestamp that `strftime` writes as it was: of ASCII digits, and of a year that is written with
four of them. -/
def Platform.WrittenBack (p : Platform φ) (timestamp : List Char) : Prop :=
  (∀ ch ∈ timestamp, isDigit ch = true) ∧
    ∀ year < 1000, p.int (timestamp.take 4) = some year → p.writeYear year = timestamp.take 4

theorem writeYear_eq_iff {a b c d : Char} {year : Nat} (h : p.int [a, b, c, d] = some year) :
    p.writeYear year = [a, b, c, d] ↔
      (∀ ch ∈ [a, b, c, d], isDigit ch = true) ∧ (year < 1000 → p.writeYear year = [a, b, c, d]) := by
  constructor
  · intro hyear
    exact ⟨hyear ▸ p.isDigit_writeYear year, fun _ => hyear⟩
  · intro ⟨hdigits, hearly⟩
    by_cases hlt : year < 1000
    · exact hearly hlt
    · obtain ⟨high, low, hhigh, hlow, rfl⟩ := int_four h
      have hhighlt := int_pair_lt hhigh
      have hlowlt := int_pair_lt hlow
      have hdiv : (100 * high + low) / 100 = high := by omega
      simp only [List.forall_mem_cons] at hdigits
      obtain ⟨ha, hb, hc, hd, -⟩ := hdigits
      rw [p.writeYear_eq _ (by omega) (by omega), hdiv, twoDigits_add, (twoDigits_eq_iff hhigh).mpr ⟨ha, hb⟩,
        (twoDigits_eq_iff hlow).mpr ⟨hc, hd⟩]
      rfl

/-- The time a timestamp was read as is written as that timestamp if it is one that is written back. -/
theorem strftime_eq_iff {timestamp : List Char} {time : Datetime} (h : p.strptime timestamp = some time) :
    p.strftime time = timestamp ↔ p.WrittenBack timestamp := by
  unfold Platform.strptime at h
  split at h
  · rename_i y₁ y₂ y₃ y₄ m₁ m₂ d₁ d₂ h₁ h₂ n₁ n₂ s₁ s₂
    simp only [Option.bind_eq_bind, Option.bind_eq_some_iff, Option.dite_none_right_eq_some] at h
    obtain ⟨-, -, year, hyear, month, hmonth, day, hday, hour, hhour, minute, hminute, second, hsecond, valid, h⟩ := h
    cases h
    have hsplit : p.strftime ⟨year, month, day, hour, minute, second, valid⟩ =
        [y₁, y₂, y₃, y₄, m₁, m₂, d₁, d₂, h₁, h₂, n₁, n₂, s₁, s₂] ↔ p.writeYear year = [y₁, y₂, y₃, y₄] ∧
          twoDigits month = [m₁, m₂] ∧ twoDigits day = [d₁, d₂] ∧ twoDigits hour = [h₁, h₂] ∧
          twoDigits minute = [n₁, n₂] ∧ twoDigits second = [s₁, s₂] := by
      constructor
      · intro heq
        have hparts := List.append_inj' (show p.writeYear year ++ _ =
          [y₁, y₂, y₃, y₄] ++ [m₁, m₂, d₁, d₂, h₁, h₂, n₁, n₂, s₁, s₂] from heq) rfl
        exact ⟨hparts.1, by simpa [twoDigits, and_assoc] using hparts.2⟩
      · intro ⟨hy, hm, hd, hh, hn, hs⟩
        show p.writeYear year ++ _ = _
        rw [hy, hm, hd, hh, hn, hs]
        rfl
    rw [hsplit, writeYear_eq_iff hyear, twoDigits_eq_iff hmonth, twoDigits_eq_iff hday, twoDigits_eq_iff hhour,
      twoDigits_eq_iff hminute, twoDigits_eq_iff hsecond, Platform.WrittenBack]
    have htake : p.int ([y₁, y₂, y₃, y₄, m₁, m₂, d₁, d₂, h₁, h₂, n₁, n₂, s₁, s₂].take 4) = some year := hyear
    rw [htake]
    simp only [List.forall_mem_cons, List.not_mem_nil, false_implies, implies_true, and_true, Option.some.injEq]
    constructor
    · intro ⟨⟨⟨hy₁, hy₂, hy₃, hy₄⟩, hearly⟩, ⟨hm₁, hm₂⟩, ⟨hd₁, hd₂⟩, ⟨hh₁, hh₂⟩, ⟨hn₁, hn₂⟩, hs₁, hs₂⟩
      refine ⟨⟨hy₁, hy₂, hy₃, hy₄, hm₁, hm₂, hd₁, hd₂, hh₁, hh₂, hn₁, hn₂, hs₁, hs₂⟩, ?_⟩
      intro other hlt hother
      cases hother
      exact hearly hlt
    · intro ⟨⟨hy₁, hy₂, hy₃, hy₄, hm₁, hm₂, hd₁, hd₂, hh₁, hh₂, hn₁, hn₂, hs₁, hs₂⟩, hearly⟩
      exact ⟨⟨⟨hy₁, hy₂, hy₃, hy₄⟩, fun hlt => hearly year hlt rfl⟩, ⟨hm₁, hm₂⟩, ⟨hd₁, hd₂⟩, ⟨hh₁, hh₂⟩, ⟨hn₁, hn₂⟩, hs₁, hs₂⟩
  · cases h

end

/-! ### Locators -/

section
variable {c : Codecs}

/-- What a match of `_CAPTURE_PATH` says. -/
theorem capturePath_eq_some {s : List Char} {capture : CaptureMatch} (h : capturePath c s = some capture) :
    ∃ web, asciiLower web = "/web/".toList ∧
      s = web ++ (capture.timestamp ++ (capture.modifier ++ '/' :: capture.original)) ∧
      capture.timestamp.length = 14 ∧ capture.timestamp.all c.isDecimal = true ∧
      (∀ ch ∈ capture.modifier, isModifierChar ch = true) ∧ isOriginal capture.original = true := by
  simp only [capturePath, Option.bind_eq_bind, Option.bind_eq_some_iff, Option.guard_eq_some'] at h
  obtain ⟨-, ⟨hweb, hlength, hdecimal, hslash, horiginal⟩, h⟩ := h
  cases h
  refine ⟨s.take 5, hweb, ?_, hlength, hdecimal, ?_, horiginal⟩
  · obtain ⟨rest, hrest⟩ := List.head?_eq_some_iff.mp hslash
    have hmodifier : (s.drop 19).takeWhile isModifierChar ++ '/' :: ((s.drop 19).dropWhile isModifierChar).tail = s.drop 19 := by
      rw [hrest, List.tail_cons, ← hrest, List.takeWhile_append_dropWhile]
    have hdrop : s.drop 19 = (s.drop 5).drop 14 := by rw [List.drop_drop]
    show s = s.take 5 ++ ((s.drop 5).take 14 ++ _)
    rw [hmodifier, hdrop, List.take_append_drop, List.take_append_drop]
  · exact fun ch hch => List.mem_takeWhile_imp hch

/-- A decimal digit is no delimiter, and `urlsplit` leaves it where it is. -/
theorem isDecimal_plain {φ : Type} {p : Platform φ} {ch : Char} (h : p.codecs.isDecimal ch = true) :
    ch ≠ '?' ∧ ch ≠ '#' ∧ isKept ch = true := by
  have hnot : ∀ other : Char, other.val < 128 → isDigit other = false → ch ≠ other := by
    intro other hascii hdigit heq
    rw [heq, p.isDecimal_eq, p.decimal_ascii other hascii, hdigit] at h
    cases h
  refine ⟨hnot '?' (by decide) (by decide), hnot '#' (by decide) (by decide), ?_⟩
  simp [isKept, hnot '\t' (by decide) (by decide), hnot '\r' (by decide) (by decide), hnot '\n' (by decide) (by decide)]

/-- What `urlsplit` reads behind an authority: the path and the query are put together again. -/
theorem splitRest_combined {url : List Char} {parts : SplitResult} {s n lead lead' original : List Char}
    (hparts : urlsplit c.toTables url = some parts) (hcombined : combined parts = lead ++ original)
    (hlead : '?' ∉ lead) (hlead' : ∀ ch ∈ lead', ch ≠ '?' ∧ ch ≠ '#') :
    combined (splitRest s n (lead' ++ original)) = lead' ++ original ∧
      (splitRest s n (lead' ++ original)).fragment = [] ∧ ∀ ch ∈ original, isKept ch = true := by
  have hclean := clean_of_urlsplit hparts
  obtain ⟨path, hpath, horiginal⟩ : ∃ path, parts.path = lead ++ path ∧ original = path ++ withQuery parts.query := by
    obtain ⟨tail, htail, hquery⟩ | ⟨path, hpath, horiginal⟩ := List.append_eq_append_iff.mp hcombined
    · cases tail with
      | nil =>
        rw [List.append_nil] at htail
        exact ⟨[], by rw [htail, List.append_nil], hquery.symm⟩
      | cons ch tail =>
        -- The query would begin within what has no question mark.
        unfold withQuery at hquery
        split at hquery
        · cases hquery
        · obtain ⟨rfl, -⟩ := List.cons.inj hquery
          exact absurd (htail ▸ List.mem_append_right _ List.mem_cons_self) hlead
    · exact ⟨path, hpath, horiginal⟩
  have hpathmem : ∀ ch ∈ path, ch ∈ parts.path := fun ch hch => hpath ▸ List.mem_append_right _ hch
  have hpathclean : ∀ ch ∈ lead' ++ path, ch ≠ '?' ∧ ch ≠ '#' := by
    intro ch hch
    obtain hch | hch := List.mem_append.mp hch
    · exact hlead' ch hch
    · exact (hclean.path ch (hpathmem ch hch)).2
  have hsplit : splitRest s n ((lead' ++ path) ++ withQuery parts.query) =
      {scheme := s, netloc := n, path := lead' ++ path, query := parts.query, fragment := []} :=
    splitRest_withQuery hpathclean fun hmem => (hclean.query '#' hmem).2 rfl
  rw [horiginal, ← List.append_assoc, hsplit]
  refine ⟨rfl, rfl, fun ch hch => ?_⟩
  obtain hch | hch := List.mem_append.mp hch
  · exact (hclean.path ch (hpathmem ch hch)).1
  · unfold withQuery at hch
    split at hch
    · cases hch
    · obtain rfl | hch := List.mem_cons.mp hch
      · rfl
      · exact (hclean.query ch hch).1

/-- The path that is written for a capture is matched with its parts. -/
theorem capturePath_written {timestamp original : List Char} (hlength : timestamp.length = 14)
    (hdecimal : timestamp.all c.isDecimal = true) (horiginal : isOriginal original = true) :
    capturePath c ("/web/".toList ++ (timestamp ++ ("id_/".toList ++ original))) =
      some ⟨timestamp, "id_".toList, original⟩ := by
  have htake : ("/web/".toList ++ (timestamp ++ ("id_/".toList ++ original))).take 5 = "/web/".toList := rfl
  have hdrop : ("/web/".toList ++ (timestamp ++ ("id_/".toList ++ original))).drop 5 =
      timestamp ++ ("id_/".toList ++ original) := rfl
  have hstamp : (timestamp ++ ("id_/".toList ++ original)).take 14 = timestamp := by
    rw [← hlength, List.take_left']
    rfl
  have hrest : ("/web/".toList ++ (timestamp ++ ("id_/".toList ++ original))).drop 19 = "id_/".toList ++ original := by
    have hsum : 19 = 5 + timestamp.length := by rw [hlength]
    rw [hsum, ← List.drop_drop, hdrop, List.drop_left']
    rfl
  have hmodifier : ("id_/".toList ++ original).takeWhile isModifierChar = "id_".toList := rfl
  have hslash : ("id_/".toList ++ original).dropWhile isModifierChar = '/' :: original := rfl
  simp only [capturePath, htake, hdrop, hstamp, hrest, hmodifier, hslash, hlength, hdecimal, horiginal, List.head?_cons,
    List.tail_cons]
  rfl

/-- A locator on the exact origin of the archive. -/
structure OnArchive (c : Codecs) (allowHttp : Bool) (parts : SplitResult) (port : Option Nat) : Prop where
  scheme : c.casefold parts.scheme = "https".toList ∨ (allowHttp = true ∧ c.casefold parts.scheme = "http".toList)
  host : rstrip '.' (c.casefold (parts.hostname c.toTables)) = snapshotHost
  userinfo : '@' ∉ parts.netloc
  fragment : parts.fragment = []
  port : port = none ∨ port = some (if c.casefold parts.scheme = "https".toList then 443 else 80)

theorem validateCaptureUrl_eq_ok {url timestamp : List Char} {original : String} {allowHttp : Bool} :
    validateCaptureUrl c url original timestamp allowHttp = .ok () ↔
      ∃ parts port capture, urlsplit c.toTables url = some parts ∧ parts.port = some port ∧
        OnArchive c allowHttp parts port ∧ capturePath c (combined parts) = some capture ∧
        capture.timestamp = timestamp ∧ (allowHttp = true ∨ capture.modifier = "id_".toList) ∧
        normalizeUrl c (String.ofList capture.original) = some original := by
  simp only [validateCaptureUrl, bind_eq_ok, require_eq_ok, ofOption_eq_ok, decide_eq_true_eq, Option.filter_eq_some_iff]
  constructor
  · intro hchecked
    obtain ⟨parts, hparts, port, hport, _, ⟨hscheme, hhost, huserinfo, hfragment, hallowed⟩, capture, ⟨hcapture, hstamp⟩, _,
      hmodifier, embedded, hembedded, hsame⟩ := hchecked
    exact ⟨parts, port, capture, hparts, hport, ⟨hscheme, hhost, huserinfo, hfragment, hallowed⟩, hcapture, hstamp,
      hmodifier, hsame ▸ hembedded⟩
  · intro hcaptured
    obtain ⟨parts, port, capture, hparts, hport, hexact, hcapture, hstamp, hmodifier, hembedded⟩ := hcaptured
    exact ⟨parts, hparts, port, hport, (), ⟨hexact.scheme, hexact.host, hexact.userinfo, hexact.fragment, hexact.port⟩,
      capture, ⟨hcapture, hstamp⟩, (), hmodifier, original, hembedded, rfl⟩

/-- The archive's own host, over HTTPS and with nothing else in the authority. -/
theorem onArchive_written {parts : SplitResult} (hscheme : parts.scheme = "https".toList)
    (hnetloc : parts.netloc = snapshotHost) (hfragment : parts.fragment = []) :
    parts.port = some none ∧ OnArchive c false parts none := by
  have hraw : parts.rawHost = snapshotHost := by
    unfold SplitResult.rawHost
    rw [hnetloc]
    decide
  have hascii : isAscii snapshotHost = true := by decide
  have hlower : asciiLower snapshotHost = snapshotHost := by decide
  have hname : parts.hostname c.toTables = snapshotHost := by
    rw [SplitResult.hostname, hraw, c.lower_ascii _ hascii, hlower]
    rfl
  constructor
  · unfold SplitResult.port SplitResult.rawPort
    rw [hnetloc]
    decide
  · constructor
    · rw [hscheme, c.casefold_ascii _ (by decide)]
      exact .inl (by decide)
    · rw [hname, c.casefold_ascii _ hascii, hlower]
      decide
    · rw [hnetloc]
      decide
    · exact hfragment
    · exact .inl rfl

end

/-! ### What is accepted -/

section
variable {φ : Type} {p : Platform φ} {locator timestamp : List Char} {original : String}

/-- The URL that is written for a capture. -/
def writtenUrl (timestamp source : List Char) : List Char :=
  "https://".toList ++ (snapshotHost ++ ("/web/".toList ++ (timestamp ++ ("id_/".toList ++ source))))

/-- A locator that the lenient check accepts is written anew with its own original, and read back with
nothing but that, its timestamp and the raw mode. -/
theorem written_of_accepted (h : validateCaptureUrl p.codecs locator original timestamp true = .ok ()) :
    ∃ source parts, canonicalCaptureUrl p.codecs locator timestamp = .ok (writtenUrl timestamp source) ∧
      normalizeUrl p.codecs (String.ofList source) = some original ∧
      urlsplit p.codecs.toTables (writtenUrl timestamp source) = some parts ∧
      parts.port = some none ∧ OnArchive p.codecs false parts none ∧
      capturePath p.codecs (combined parts) = some ⟨timestamp, "id_".toList, source⟩ := by
  obtain ⟨parts, port, capture, hparts, hport, hexact, hcapture, rfl, -, hembedded⟩ := validateCaptureUrl_eq_ok.mp h
  obtain ⟨web, hweb, hcombined, hlength, hdecimal, hmodifier, horiginal⟩ := capturePath_eq_some hcapture
  have hdigits : ∀ ch ∈ capture.timestamp, ch ≠ '?' ∧ ch ≠ '#' ∧ isKept ch = true := fun ch hch =>
    isDecimal_plain (List.all_eq_true.mp hdecimal ch hch)
  have hlead : '?' ∉ web ++ (capture.timestamp ++ (capture.modifier ++ ['/'])) := by
    simp only [List.mem_append, List.mem_singleton]
    rintro (hmem | hmem | hmem | hmem)
    · have hmark : '?' ∈ asciiLower web := List.mem_map_of_mem (f := Char.toLower) hmem
      rw [hweb] at hmark
      exact absurd hmark (by decide)
    · exact (hdigits _ hmem).1 rfl
    · exact absurd (hmodifier _ hmem) (by decide)
    · cases hmem
  have hfixed : ∀ ch ∈ "/web/".toList ++ "id_/".toList, ch ≠ '?' ∧ ch ≠ '#' ∧ isKept ch = true :=
    List.all_iff_forall_prop.mp (by decide)
  have hplain : ∀ ch ∈ "/web/".toList ++ (capture.timestamp ++ "id_/".toList), ch ≠ '?' ∧ ch ≠ '#' ∧ isKept ch = true := by
    intro ch hch
    simp only [List.mem_append] at hch
    obtain hch | hch | hch := hch
    · exact hfixed ch (List.mem_append_left _ hch)
    · exact hdigits ch hch
    · exact hfixed ch (List.mem_append_right _ hch)
  have hsource : combined parts = (web ++ (capture.timestamp ++ (capture.modifier ++ ['/']))) ++ capture.original := by
    rw [hcombined]
    simp only [List.append_assoc, List.singleton_append]
  obtain ⟨hrest, hfragment, hkept⟩ := splitRest_combined (s := "https".toList) (n := snapshotHost) hparts hsource hlead
    fun ch hch => ⟨(hplain ch hch).1, (hplain ch hch).2.1⟩
  have hpath : ("/web/".toList ++ (capture.timestamp ++ "id_/".toList)) ++ capture.original =
      "/web/".toList ++ (capture.timestamp ++ ("id_/".toList ++ capture.original)) := by
    simp only [List.append_assoc]
  rw [hpath] at hrest hfragment
  have hallkept : ∀ ch ∈ "/web/".toList ++ (capture.timestamp ++ ("id_/".toList ++ capture.original)), isKept ch = true := by
    intro ch hch
    rw [← hpath] at hch
    obtain hch | hch := List.mem_append.mp hch
    · exact (hplain ch hch).2.2
    · exact hkept ch hch
  have hhost : ∀ ch ∈ snapshotHost, isNetlocEnd ch = false ∧ isKept ch = true :=
    List.all_iff_forall_prop.mp (by decide)
  have hsplit : urlsplit p.codecs.toTables (writtenUrl capture.timestamp capture.original) =
      some (splitRest "https".toList snapshotHost
        ("/web/".toList ++ (capture.timestamp ++ ("id_/".toList ++ capture.original)))) := by
    have hread := isScheme_https.urlsplit_rest p.codecs.toTables hhost hallkept fun ch hch => by
      cases hch
      rfl
    exact hread
  have hwritten : (splitRest "https".toList snapshotHost
      ("/web/".toList ++ (capture.timestamp ++ ("id_/".toList ++ capture.original)))).port = some none ∧
      OnArchive p.codecs false (splitRest "https".toList snapshotHost
        ("/web/".toList ++ (capture.timestamp ++ ("id_/".toList ++ capture.original)))) none :=
    onArchive_written rfl rfl hfragment
  refine ⟨capture.original, _, ?_, hembedded, hsplit, hwritten.1, hwritten.2, ?_⟩
  · rw [canonicalCaptureUrl, hparts]
    show (ofOption _ (capturePath p.codecs (combined parts)) >>= _) = _
    rw [hcapture]
    rfl
  · rw [hrest]
    exact capturePath_written hlength hdecimal horiginal

/-- What a direct fetch of a capture needs: a URL on the archive's host, over HTTPS and in raw mode, that
holds the same original, and that passes the check of what was fetched. -/
structure Fetchable (p : Platform φ) (original : String) (url : List Char) (capturedAt : Datetime) : Prop where
  written : ∃ stamp source, url = writtenUrl stamp source ∧ normalizeUrl p.codecs (String.ofList source) = some original
  accepted : p.validateSnapshot url original capturedAt = .ok ()

/-- **A capture of an accepted answer** can be fetched directly exactly if its timestamp is in ASCII digits,
and of a year that is written with four of them. -/
theorem fetchable_iff (p : Platform φ) (body : List UInt8) (original : String) (locator timestamp url : List Char)
    (capturedAt : Datetime) (hclosest : p.closest body = .ok (locator, timestamp))
    (h : p.parseAvailability body original = .ok (url, capturedAt)) :
    Fetchable p original url capturedAt ↔ p.WrittenBack timestamp := by
  simp only [Platform.parseAvailability, hclosest, bind_eq_ok, ofOption_eq_ok, Except.ok.injEq, exists_eq_left'] at h
  obtain ⟨_, haccepted, time, htime, written, hwritten, hreturn⟩ := h
  cases hreturn
  obtain ⟨source, parts, hcanonical, hsource, hparts, hport, hexact, hcapture⟩ := written_of_accepted haccepted
  obtain rfl := Except.ok.inj (hcanonical.symm.trans hwritten)
  rw [← strftime_eq_iff htime]
  constructor
  · intro hfetched
    obtain ⟨_, hchecked⟩ := hfetched
    obtain ⟨parts', _, capture, hparts', -, -, hcapture', hstamp, -⟩ := validateCaptureUrl_eq_ok.mp hchecked
    cases hparts.symm.trans hparts'
    cases hcapture.symm.trans hcapture'
    exact hstamp.symm
  · intro hback
    refine ⟨⟨timestamp, source, rfl, hsource⟩, validateCaptureUrl_eq_ok.mpr ?_⟩
    exact ⟨parts, none, _, hparts, hport, hexact, hcapture, hback.symm, .inr rfl, hsource⟩

end

/-! ### An answer in full-width digits -/

/-- A digit in ASCII or in full width. -/
def wideDecimal (ch : Char) : Option Nat :=
  if isDigit ch then some (ch.toNat - '0'.toNat)
  else if 0xff10 ≤ ch.toNat ∧ ch.toNat ≤ 0xff19 then some (ch.toNat - 0xff10)
  else none

theorem wideDecimal_ascii (ch : Char) (hascii : ch.val < 128) :
    wideDecimal ch = if isDigit ch then some (ch.toNat - '0'.toNat) else none := by
  have hlow : ch.toNat < 128 := hascii
  have hnot : ¬(0xff10 ≤ ch.toNat ∧ ch.toNat ≤ 0xff19) := by omega
  rw [wideDecimal, if_neg hnot]

theorem wideDecimal_le (ch : Char) (n : Nat) (h : wideDecimal ch = some n) : n ≤ 9 := by
  unfold wideDecimal at h
  split at h
  · rename_i hdigit
    simp only [isDigit, Bool.and_eq_true, decide_eq_true_eq] at hdigit
    have hhigh : ch.toNat ≤ 57 := hdigit.2
    cases h
    show ch.toNat - 48 ≤ 9
    omega
  · split at h
    · have hvalue := Option.some.inj h
      omega
    · cases h

def plainPlatform : Platform Unit where
  floats := JsonText.Floats.none
  recursionLimit _ := 1000
  shallow := Parsers.shallow_thousand
  codecs := {plainCodecs with isDecimal := fun ch => (wideDecimal ch).isSome}
  decode encoding body := if encoding = "utf-8" then Utf8.decode body else none
  decimal := wideDecimal
  writeYear year := twoDigits (year / 100) ++ twoDigits year
  isDecimal_eq _ := rfl
  decimal_ascii := wideDecimal_ascii
  decimal_le := wideDecimal_le
  isDigit_writeYear year ch hch := by
    have hdigit : ∀ n < 10, isDigit (Char.ofNat (48 + n)) = true := by decide
    simp only [twoDigits, List.cons_append, List.nil_append, List.mem_cons, List.not_mem_nil, or_false] at hch
    obtain rfl | rfl | rfl | rfl := hch
    all_goals exact hdigit _ (Nat.mod_lt _ (by decide))
  writeYear_eq _ _ _ := rfl

/-- The answer that names a capture of `http://example.org/` at a time. -/
def answer (timestamp : String) : List UInt8 :=
  let closest : JsonValue Unit := .object [
    (Text.ofString "available", .bool true),
    (Text.ofString "status", .string (Text.ofString "200")),
    (Text.ofString "timestamp", .string (Text.ofString timestamp)),
    (Text.ofString "url", .string (Text.ofString ("http://web.archive.org/web/" ++ timestamp ++ "/http://example.org/")))]
  let document : JsonValue Unit := .object [
    (Text.ofString "archived_snapshots", .object [(Text.ofString "closest", closest)])]
  (JsonText.write JsonText.Floats.none false document).flatMap Utf8.bytesOf

theorem fetchable_plain : ∃ url capturedAt, Fetchable plainPlatform "http://example.org/" url capturedAt := by
  have hclosest : (plainPlatform.closest (answer "20240102030405")).toOption =
      some ("http://web.archive.org/web/20240102030405/http://example.org/".toList, "20240102030405".toList) := by decide +kernel
  have hparsed : (plainPlatform.parseAvailability (answer "20240102030405") "http://example.org/").toOption =
      some (writtenUrl "20240102030405".toList "http://example.org/".toList, ⟨2024, 1, 2, 3, 4, 5, by decide⟩) := by
    decide +kernel
  refine ⟨_, _, (fetchable_iff plainPlatform _ _ _ _ _ _ (toOption_eq_some.mp hclosest) (toOption_eq_some.mp hparsed)).mpr ?_⟩
  exact ⟨List.all_iff_forall_prop.mp (by decide), fun year hlt hyear => by
    have hvalue : plainPlatform.int ("20240102030405".toList.take 4) = some 2024 := by decide
    cases hyear.symm.trans hvalue
    omega⟩

/-- A capture whose last digit is in full width: it is accepted, and what is fetched of it is not. -/
theorem wide_digit_not_fetchable : ¬ ∀ (p : Platform Unit) (target original : String) (body : List UInt8) (url : List Char)
    (capturedAt : Datetime), normalizeUrl p.codecs target = some original →
    p.parseAvailability body original = .ok (url, capturedAt) → Fetchable p original url capturedAt := by
  intro h
  have hnormal : normalizeUrl plainPlatform.codecs "http://example.org/" = some "http://example.org/" := by decide +kernel
  have hparsed : (plainPlatform.parseAvailability (answer "2024010203040\uff15") "http://example.org/").toOption =
      some (writtenUrl "2024010203040\uff15".toList "http://example.org/".toList, ⟨2024, 1, 2, 3, 4, 5, by decide⟩) := by
    decide +kernel
  have hchecked : plainPlatform.validateSnapshot (writtenUrl "2024010203040\uff15".toList "http://example.org/".toList)
      "http://example.org/" ⟨2024, 1, 2, 3, 4, 5, by decide⟩ = .error (.execution "Wayback capture locator is malformed") := by
    decide +kernel
  have haccepted := (h plainPlatform _ _ _ _ _ hnormal (toOption_eq_some.mp hparsed)).accepted
  exact error_ne_ok (hchecked.symm.trans haccepted)

end Fetech.Wayback
