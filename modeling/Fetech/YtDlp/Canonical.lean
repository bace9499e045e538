import Mathlib.Data.Bool.AllAny
import Mathlib.Data.List.ReduceOption
import Fetech.Lib.QueryRoundtrip
import Fetech.Security.NormalForm
import Fetech.YtDlp

/-! The one video a locator names.

A locator that was accepted is written with a host, a path and parameters of a plain kind, so it is
read as it was written, but for two things. Of several `v` parameters only the last is compared with
the video, and all of them are written; and the bound on the bytes of a target is checked before the
colons in its values are escaped. A target without either names one video wherever it is read
(`canonical_names_one_video_iff`). -/
namespace Fetech.YtDlp
open Lib Lib.Url Lib.Except

/-! ### Characters and segments -/

theorem ofList_mem_iff {s : List Char} {names : List String} : String.ofList s ∈ names ↔ s ∈ names.map String.toList := by
  rw [List.mem_map]
  constructor
  · intro h
    exact ⟨_, h, String.toList_ofList⟩
  · intro ⟨name, hname, heq⟩
    rwa [← heq, String.ofList_toList]

theorem ne_of_isSafe {ch d : Char} (h : isSafe ch = true) (hd : isSafe d = false) : ch ≠ d := by
  intro heq
  rw [heq, hd] at h
  cases h

/-- A video identifier is a short segment without anything to escape. -/
theorem isVideoId_plain {id : List Char} (h : isVideoId id = true) :
    id ≠ [] ∧ id.length ≤ 64 ∧ ∀ ch ∈ id, isSafe ch = true := by
  simp only [isVideoId, Bool.and_eq_true, decide_eq_true_eq, List.all_eq_true, Bool.or_eq_true, beq_iff_eq] at h
  obtain ⟨⟨hpos, hle⟩, hchars⟩ := h
  refine ⟨List.ne_nil_of_length_pos hpos, hle, fun ch hch => ?_⟩
  obtain ((halpha | hdigit) | hline) | hdash := hchars ch hch
  · simp [isSafe, halpha]
  · simp [isSafe, hdigit]
  · simp [isSafe, hline]
  · simp [isSafe, hdash]

/-- A value that is kept is there, and only its colons are escaped. -/
theorem isQueryValue_plain {value : List Char} (h : isQueryValue value = true) :
    value ≠ [] ∧ ∀ ch ∈ value, ch = ':' ∨ isSafe ch = true := by
  simp only [isQueryValue, Bool.and_eq_true, decide_eq_true_eq, List.all_eq_true, Bool.or_eq_true, beq_iff_eq] at h
  obtain ⟨⟨hpos, -⟩, hchars⟩ := h
  refine ⟨List.ne_nil_of_length_pos hpos, fun ch hch => ?_⟩
  obtain ((((halpha | hdigit) | hline) | hdot) | hcolon) | hdash := hchars ch hch
  · simp [isSafe, halpha]
  · simp [isSafe, hdigit]
  · simp [isSafe, hline]
  · simp [isSafe, hdot]
  · exact .inl hcolon
  · simp [isSafe, hdash]

theorem isQueryValue_of_isVideoId {id : List Char} (h : isVideoId id = true) : isQueryValue id = true := by
  simp only [isVideoId, isQueryValue, Bool.and_eq_true, decide_eq_true_eq, List.all_eq_true, Bool.or_eq_true,
    beq_iff_eq] at h ⊢
  obtain ⟨⟨hpos, hle⟩, hchars⟩ := h
  refine ⟨⟨hpos, by omega⟩, fun ch hch => ?_⟩
  obtain (hword | hline) | hdash := hchars ch hch
  · exact .inl (.inl (.inl (.inl hword)))
  · exact .inl (.inl (.inl (.inr hline)))
  · exact .inr hdash

theorem slash_notMem {s : List Char} (h : ∀ ch ∈ s, isSafe ch = true) : '/' ∉ s := fun hmem =>
  ne_of_isSafe (h _ hmem) (by decide) rfl

/-- Escapes make a value longer by two for each colon. -/
theorem length_quotePlus {value : List Char} (h : ∀ ch ∈ value, ch = ':' ∨ isSafe ch = true) :
    (quotePlus value).length = value.length + 2 * value.count ':' := by
  induction value with
  | nil => rfl
  | cons ch value ih =>
    rw [List.forall_mem_cons] at h
    have hrest : (value.flatMap quoteChar).length = value.length + 2 * value.count ':' := ih h.2
    rw [quotePlus, List.flatMap_cons, List.length_append, hrest, List.length_cons, List.count_cons]
    obtain rfl | hsafe := h.1
    · have hcolon : (quoteChar ':').length = 3 := by decide
      simp only [hcolon, beq_self_eq_true, if_true]
      omega
    · have hne : ch ≠ ':' := ne_of_isSafe hsafe (by decide)
      have hspace : ch ≠ ' ' := ne_of_isSafe hsafe (by decide)
      have hone : quoteChar ch = [ch] := by
        rw [quoteChar, if_neg hspace, if_pos hsafe]
      simp only [hone, List.length_singleton, beq_iff_eq, hne, if_false]
      omega

theorem segments_one {id : List Char} (hne : id ≠ []) (hslash : '/' ∉ id) : segments ('/' :: id) = [id] := by
  have hsplit : ('/' :: id).splitOn '/' = [[], id] := by
    rw [← List.nil_append ('/' :: id), List.splitOn_append_cons_self_of_not_mem List.not_mem_nil,
      List.splitOn_eq_singleton hslash]
  rw [segments, hsplit]
  simp [hne]

theorem segments_two {kind id : List Char} (hkind : kind ≠ [] ∧ '/' ∉ kind) (hid : id ≠ [] ∧ '/' ∉ id) :
    segments ('/' :: kind ++ '/' :: id) = [kind, id] := by
  have hsplit : ('/' :: kind ++ '/' :: id).splitOn '/' = [[], kind, id] := by
    rw [← List.nil_append ('/' :: kind ++ '/' :: id), List.cons_append,
      List.splitOn_append_cons_self_of_not_mem List.not_mem_nil, List.splitOn_append_cons_self_of_not_mem hkind.2,
      List.splitOn_eq_singleton hid.2]
  rw [segments, hsplit]
  simp [hkind.1, hid.1]

theorem dropWhile_of_notMem {c : Char} {s : List Char} (h : c ∉ s) : s.dropWhile (· == c) = s := by
  cases s with
  | nil => rfl
  | cons ch rest =>
    have hne : (ch == c) = false := beq_false_of_ne fun heq => h (heq ▸ List.mem_cons_self)
    exact List.dropWhile_cons_of_neg (by rw [hne]; exact Bool.false_ne_true)

/-- Nothing is stripped off a text that ends without the character. -/
theorem rstrip_of_notMem {c : Char} {s : List Char} (hne : s ≠ []) (h : c ∉ s) (front : List Char) :
    rstrip c (front ++ s) = front ++ s := by
  have hlast : rstrip c s = s := by
    rw [rstrip, dropWhile_of_notMem fun hmem => h (List.mem_reverse.mp hmem), List.reverse_reverse]
  obtain ⟨ch, hch⟩ := List.exists_mem_of_ne_nil s hne
  have happ : rstrip c (front ++ s) = front ++ rstrip c s :=
    rdropWhile_append front hch (beq_false_of_ne fun heq => h (heq ▸ hch))
  rw [happ, hlast]

theorem afterLast_append_cons {c : Char} {s : List Char} (h : c ∉ s) (front : List Char) :
    afterLast c (front ++ c :: s) = s := by
  have hreverse : (front ++ c :: s).reverse = s.reverse ++ c :: front.reverse := by
    rw [List.reverse_append, List.reverse_cons, List.append_assoc]
    rfl
  rw [afterLast, hreverse, (before_append_cons (fun hmem => h (List.mem_reverse.mp hmem)) _).1, List.reverse_reverse]

/-- How long a path is that consists of the non-empty segments of another. -/
def segmentLength (path : List Char) : Nat := ((segments path).map (·.length + 1)).sum

/-! ### What a path names -/

/-- A path as it is written again, and the video it names on a host. -/
inductive Names (host path : List Char) (safePairs : List (List Char × List Char)) (id : List Char) : Prop
  | short (hhost : host = "youtu.be".toList) (hpath : path = '/' :: id)
  | watch (hhost : host ≠ "youtu.be".toList) (hpath : path = "/watch".toList) (hvalue : lastValue "v" safePairs = some id)
  | embedded (kind : List Char) (hhost : host ≠ "youtu.be".toList)
      (hkind : kind ∈ ["embed", "live", "shorts"].map String.toList) (hpath : path = '/' :: kind ++ '/' :: id)

theorem kind_plain : ∀ kind ∈ ["embed", "live", "shorts"].map String.toList,
    kind ≠ [] ∧ kind.length ≤ 6 ∧ kind.all isSafe = true := by decide

theorem embedded_ne_watch (kind id : List Char) : '/' :: kind ++ '/' :: id ≠ "/watch".toList := by
  intro heq
  have hcount := congrArg (List.count '/') heq
  have hone : "/watch".toList.count '/' = 1 := by decide
  rw [List.count_append, List.count_cons_self, List.count_cons_self, hone] at hcount
  omega

theorem readPath_eq_ok {host path path' id : List Char} {safePairs : List (List Char × List Char)}
    (h : readPath host path safePairs = .ok (path', id)) :
    isVideoId id = true ∧ Names host path' safePairs id ∧ path'.length = segmentLength path := by
  unfold readPath at h
  split at h
  · rename_i hhost
    split at h
    · rename_i one hone
      obtain ⟨_, hid, heq⟩ := bind_eq_ok.mp h
      cases heq
      refine ⟨require_eq_ok.mp hid, .short hhost rfl, ?_⟩
      rw [segmentLength, hone]
      simp
    · cases h
  · rename_i hhost
    split at h
    · rename_i hpath
      obtain ⟨_, hid, heq⟩ := bind_eq_ok.mp h
      cases heq
      have hvideo := require_eq_ok.mp hid
      refine ⟨hvideo, .watch hhost hpath ?_, ?_⟩
      · cases hvalue : lastValue "v" safePairs with
        | none =>
          rw [hvalue] at hvideo
          cases hvideo
        | some id => rfl
      · rw [hpath]
        decide
    · split at h
      · rename_i kind one htwo
        obtain ⟨_, hid, heq⟩ := bind_eq_ok.mp h
        cases heq
        have hboth := require_eq_ok.mp hid
        rw [decide_eq_true_eq, ofList_mem_iff] at hboth
        refine ⟨hboth.2, .embedded kind hhost hboth.1 rfl, ?_⟩
        rw [segmentLength, htwo]
        simp only [List.map_cons, List.map_nil, List.sum_cons, List.sum_nil, List.length_append, List.length_cons]
        omega
      · cases h

/-- A path that was written is read as it is. -/
theorem readPath_of_names {host path id : List Char} {safePairs : List (List Char × List Char)} (hid : isVideoId id = true)
    (h : Names host path safePairs id) : readPath host path safePairs = .ok (path, id) := by
  obtain ⟨hne, -, hsafe⟩ := isVideoId_plain hid
  cases h with
  | short hhost hpath =>
    rw [readPath, if_pos hhost, hpath, segments_one hne (slash_notMem hsafe)]
    simp only [hid, require, if_true]
    rfl
  | watch hhost hpath hvalue =>
    rw [readPath, if_neg hhost, if_pos hpath, hvalue]
    simp only [Option.getD_some, hid, require, if_true]
    rfl
  | embedded kind hhost hkind hpath =>
    obtain ⟨hkindne, -, hkindsafe⟩ := kind_plain kind hkind
    have hslash : '/' ∉ kind := slash_notMem (List.all_eq_true.mp hkindsafe)
    rw [readPath, if_neg hhost, hpath, if_neg (embedded_ne_watch kind id), segments_two ⟨hkindne, hslash⟩ ⟨hne, slash_notMem hsafe⟩]
    simp only [hid, ofList_mem_iff.mpr hkind, require, and_self, decide_true, if_true]
    rfl

/-! ### What a locator holds -/

/-- A host, a path and parameters as they are kept. -/
structure Locator.WellFormed (l : Locator) : Prop where
  host : l.host ∈ youtubeHosts.map String.toList
  count : l.safePairs.length ≤ 8
  fields : ∀ pair ∈ l.safePairs, pair.1 ∈ allowedQuery.map String.toList ∧ isQueryValue pair.2 = true
  id : isVideoId l.expectedVideoId = true
  names : Names l.host l.path l.safePairs l.expectedVideoId
  video : ∀ value ∈ lastValue "v" l.safePairs, value = l.expectedVideoId

variable {c : Codecs}

variable (c) in
/-- The host of a target in its one spelling. -/
def hostOf (parsed : SplitResult) : List Char := canonicalHost c ((c.idna (parsed.hostname c.toTables)).getD [])

/-- The parameters of a query that are written again. -/
def keptPairs (query : List Char) : List (List Char × List Char) :=
  (parseQsl query).filter fun pair => String.ofList pair.1 ∈ allowedQuery

theorem segmentLength_root (path : List Char) : segmentLength (if path.isEmpty then ['/'] else path) = segmentLength path := by
  cases path with
  | nil => decide
  | cons ch rest => rfl

theorem readOrigin_eq_ok {target host : List Char} {parsed : SplitResult} (h : readOrigin c target = .ok (parsed, host)) :
    (encodeUtf8 target).length ≤ maximumTargetBytes ∧ urlsplit c.toTables target = some parsed ∧ host = hostOf c parsed ∧
      host ∈ youtubeHosts.map String.toList := by
  simp only [readOrigin, bind_eq_ok, require_eq_ok, ofOption_eq_ok] at h
  obtain ⟨-, htarget, parsed', hparsed, encoded, hencoded, port, -, -, horigin, heq⟩ := h
  cases heq
  simp only [Bool.and_eq_true, decide_eq_true_eq] at htarget horigin
  refine ⟨htarget.1.2, hparsed, ?_, ofList_mem_iff.mp horigin.2.1⟩
  rw [hostOf, hencoded]
  rfl

theorem readPairs_eq_ok {query : List Char} {safePairs : List (List Char × List Char)} (h : readPairs query = .ok safePairs) :
    safePairs = keptPairs query ∧ safePairs.length ≤ 8 ∧
      ∀ pair ∈ safePairs, pair.1 ∈ allowedQuery.map String.toList ∧ isQueryValue pair.2 = true := by
  simp only [readPairs, bind_eq_ok, require_eq_ok, decide_eq_true_eq] at h
  obtain ⟨-, -, -, hcount, -, hvalues, heq⟩ := h
  cases heq
  refine ⟨rfl, (List.length_filter_le _ _).trans hcount, fun pair hpair => ⟨?_, List.all_eq_true.mp hvalues pair hpair⟩⟩
  exact ofList_mem_iff.mp (of_decide_eq_true (List.mem_filter.mp hpair).2)

/-- What is read of a target. -/
theorem readLocator_eq_ok {target : List Char} {l : Locator} (h : readLocator c target = .ok l) :
    (encodeUtf8 target).length ≤ maximumTargetBytes ∧ l.WellFormed ∧ ∃ parsed, urlsplit c.toTables target = some parsed ∧
      l.host = hostOf c parsed ∧ l.path.length = segmentLength parsed.path ∧ l.safePairs = keptPairs parsed.query := by
  simp only [readLocator, bind_eq_ok, require_eq_ok] at h
  obtain ⟨⟨parsed, host⟩, horigin, safePairs, hpairs, ⟨path, id⟩, hpath, -, hvideo, heq⟩ := h
  cases heq
  obtain ⟨hbytes, hparsed, hhost, hmem⟩ := readOrigin_eq_ok horigin
  obtain ⟨hkept, hcount, hfields⟩ := readPairs_eq_ok hpairs
  obtain ⟨hid, hnames, hlength⟩ := readPath_eq_ok hpath
  refine ⟨hbytes, ⟨hmem, hcount, hfields, hid, hnames, fun value hvalue => ?_⟩, parsed, hparsed, hhost, ?_, hkept⟩
  · have hlast : lastValue "v" safePairs = some value := hvalue
    rw [hlast] at hvideo
    exact of_decide_eq_true hvideo
  · exact hlength.trans (segmentLength_root parsed.path)

/-! ### What is written -/

theorem host_plain : ∀ host ∈ youtubeHosts.map String.toList, host ≠ [] ∧ host.length ≤ 17 ∧ host.all isSafe = true ∧
    asciiLower host = host ∧ labelsOk host = true ∧ rstrip '.' host = host := by decide

theorem key_plain : ∀ key ∈ allowedQuery.map String.toList, key.all isSafe = true := by decide

/-- Visible ASCII. -/
def isPrintable (ch : Char) : Bool := 0x20 < ch.val && ch.val < 0x7f

theorem isPrintable_of_isSafe {ch : Char} (h : isSafe ch = true) : isPrintable ch = true := by
  have hbetween : ∀ {low high : Char}, 0x20 < low.val → high.val < 0x7f → low ≤ ch → ch ≤ high → isPrintable ch = true := by
    intro low high hlow hhigh hle hge
    rw [isPrintable, Bool.and_eq_true, decide_eq_true_eq, decide_eq_true_eq]
    exact ⟨UInt32.lt_of_lt_of_le hlow hle, UInt32.lt_of_le_of_lt hge hhigh⟩
  simp only [isSafe, isAlpha, isDigit, Bool.or_eq_true, Bool.and_eq_true, decide_eq_true_eq, beq_iff_eq] at h
  obtain (((((⟨hle, hge⟩ | ⟨hle, hge⟩) | ⟨hle, hge⟩) | rfl) | rfl) | rfl) | rfl := h
  · exact hbetween (by decide) (by decide) hle hge
  · exact hbetween (by decide) (by decide) hle hge
  · exact hbetween (by decide) (by decide) hle hge
  · decide
  · decide
  · decide
  · decide

theorem isPrintable_urlencode {pairs : List (List Char × List Char)} {ch : Char} (h : ch ∈ urlencode pairs) :
    isPrintable ch = true ∧ ch ≠ '#' := by
  obtain rfl | rfl | rfl | rfl | hsafe := urlencode_chars h
  · decide
  · decide
  · decide
  · decide
  · exact ⟨isPrintable_of_isSafe hsafe, ne_of_isSafe hsafe (by decide)⟩

theorem isKept_of_isPrintable {ch : Char} (h : isPrintable ch = true) : isKept ch = true := by
  have hne : ∀ d, isPrintable d = false → ch ≠ d := by
    intro d hd heq
    rw [← heq, h] at hd
    cases hd
  simp [isKept, hne '\t' (by decide), hne '\r' (by decide), hne '\n' (by decide)]

namespace Locator.WellFormed
variable {l : Locator} (h : l.WellFormed)
include h

theorem path_chars : ∀ ch ∈ l.path, ch = '/' ∨ isSafe ch = true := by
  obtain ⟨-, -, hsafe⟩ := isVideoId_plain h.id
  cases h.names with
  | short hhost hpath =>
    rw [hpath]
    exact List.forall_mem_cons.mpr ⟨.inl rfl, fun ch hch => .inr (hsafe ch hch)⟩
  | watch hhost hpath hvalue =>
    rw [hpath]
    exact List.all_iff_forall_prop.mp (by decide)
  | embedded kind hhost hkind hpath =>
    have hkindsafe := List.all_eq_true.mp (kind_plain kind hkind).2.2
    rw [hpath]
    refine List.forall_mem_append.mpr ⟨?_, ?_⟩
    · exact List.forall_mem_cons.mpr ⟨.inl rfl, fun ch hch => .inr (hkindsafe ch hch)⟩
    · exact List.forall_mem_cons.mpr ⟨.inl rfl, fun ch hch => .inr (hsafe ch hch)⟩

theorem path_root : l.path.head? = some '/' := by
  cases h.names with
  | short hhost hpath =>
    rw [hpath]
    rfl
  | watch hhost hpath hvalue =>
    rw [hpath]
    rfl
  | embedded kind hhost hkind hpath =>
    rw [hpath]
    rfl

theorem host_safe : ∀ ch ∈ l.host, isSafe ch = true := List.all_eq_true.mp (host_plain l.host h.host).2.2.1

theorem isAscii_host : isAscii l.host = true := List.all_eq_true.mpr fun ch hch =>
  decide_eq_true (ascii_of_isSafe (h.host_safe ch hch)).1

theorem rooted : l.parts.Rooted where
  path := by
    intro ch hch
    obtain rfl | hsafe := h.path_chars ch hch
    · decide
    · exact ⟨isKept_of_isPrintable (isPrintable_of_isSafe hsafe), ne_of_isSafe hsafe (by decide), ne_of_isSafe hsafe (by decide)⟩
  query := fun ch hch => ⟨isKept_of_isPrintable (isPrintable_urlencode hch).1, (isPrintable_urlencode hch).2⟩
  scheme := isScheme_https
  authority := by
    show usesNetloc.contains (String.ofList "https".toList) = true
    decide
  root := h.path_root
  fragment := rfl
  netloc := by
    intro ch hch
    have hsafe := h.host_safe ch hch
    refine ⟨?_, isKept_of_isPrintable (isPrintable_of_isSafe hsafe)⟩
    simp [isNetlocEnd, ne_of_isSafe (d := '/') hsafe (by decide), ne_of_isSafe (d := '?') hsafe (by decide),
      ne_of_isSafe (d := '#') hsafe (by decide)]

theorem url_eq : urlunsplit l.parts = "https".toList ++ ':' :: '/' :: '/' :: (l.host ++ (l.path ++ withQuery (urlencode l.safePairs))) :=
  h.rooted.toAbsolute.urlunsplit_eq

/-- What is written is visible ASCII. -/
theorem isPrintable_url : ∀ ch ∈ urlunsplit l.parts, isPrintable ch = true := by
  have hscheme : ∀ ch ∈ "https://".toList, isPrintable ch = true := List.all_eq_true.mp (by decide)
  have hquery : ∀ ch ∈ withQuery (urlencode l.safePairs), isPrintable ch = true := by
    intro ch hch
    unfold withQuery at hch
    split at hch
    · cases hch
    · obtain rfl | hch := List.mem_cons.mp hch
      · decide
      · exact (isPrintable_urlencode hch).1
  have hpath : ∀ ch ∈ l.path, isPrintable ch = true := by
    intro ch hch
    obtain rfl | hsafe := h.path_chars ch hch
    · decide
    · exact isPrintable_of_isSafe hsafe
  have hhost : ∀ ch ∈ l.host, isPrintable ch = true := fun ch hch => isPrintable_of_isSafe (h.host_safe ch hch)
  have hassoc : urlunsplit l.parts = "https://".toList ++ (l.host ++ (l.path ++ withQuery (urlencode l.safePairs))) := h.url_eq
  rw [hassoc]
  exact List.forall_mem_append.mpr ⟨hscheme, List.forall_mem_append.mpr ⟨hhost, List.forall_mem_append.mpr ⟨hpath, hquery⟩⟩⟩

theorem isAscii_url : isAscii (urlunsplit l.parts) = true := List.all_eq_true.mpr fun ch hch => by
  have hprintable := h.isPrintable_url ch hch
  rw [isPrintable, Bool.and_eq_true, decide_eq_true_eq, decide_eq_true_eq] at hprintable
  exact decide_eq_true (UInt32.lt_trans hprintable.2 (by decide))

/-- The bytes of what is written. -/
theorem length_url : (encodeUtf8 (urlunsplit l.parts)).length = 8 + l.host.length + l.path.length +
    (l.safePairs.map fun pair => pair.1.length + pair.2.length + 2 * pair.2.count ':' + 2).sum := by
  have hpairs : l.safePairs.map (fun pair => (quotePlus pair.1).length + (quotePlus pair.2).length + 2) =
      l.safePairs.map fun pair => pair.1.length + pair.2.length + 2 * pair.2.count ':' + 2 := by
    refine List.map_congr_left fun pair hpair => ?_
    obtain ⟨hkey, hvalue⟩ := h.fields pair hpair
    have hsafe := List.all_eq_true.mp (key_plain pair.1 hkey)
    have hcolon : pair.1.count ':' = 0 := List.count_eq_zero.mpr fun hmem => ne_of_isSafe (hsafe _ hmem) (by decide) rfl
    rw [length_quotePlus fun ch hch => .inr (hsafe ch hch), length_quotePlus (isQueryValue_plain hvalue).2, hcolon]
    omega
  have hscheme : "https".toList.length = 5 := by decide
  rw [length_encodeUtf8_of_ascii h.isAscii_url, h.url_eq]
  simp only [List.length_append, List.length_cons, length_withQuery_urlencode, hpairs, hscheme]
  omega

/-! ### What is read of what was written -/

theorem urlsplit_url (t : Tables) : urlsplit t (urlunsplit l.parts) = some l.parts := by
  have hascii : isAscii l.parts.netloc = true := h.isAscii_host
  have hno : ∀ d, isSafe d = false → l.host.contains d = false := by
    intro d hd
    rw [Bool.eq_false_iff, ne_eq, List.contains_iff_mem]
    exact fun hmem => ne_of_isSafe (h.host_safe _ hmem) hd rfl
  have hbrackets : bracketsOk t l.parts.netloc = true := by
    show ((l.host.contains '[' == l.host.contains ']') && (!l.host.contains '[' || bracketedNetlocOk t l.host)) = true
    rw [hno '[' (by decide), hno ']' (by decide)]
    rfl
  rw [h.rooted.urlsplit_urlunsplit, hbrackets, netlocOk, hascii]
  rfl

/-- The host is all there is to the authority. -/
theorem authority : l.parts.rawHost = l.host ∧ l.parts.rawPort = [] := by
  have hno : ∀ d, isSafe d = false → d ∉ l.host := fun d hd hmem => ne_of_isSafe (h.host_safe _ hmem) hd rfl
  have hinfo : afterLast '@' l.parts.netloc = l.host := (afterLast_of_notMem (hno '@' (by decide))).1
  have hopen : l.host.contains '[' = false := by
    rw [Bool.eq_false_iff, ne_eq, List.contains_iff_mem]
    exact hno '[' (by decide)
  obtain ⟨hbefore, hafter⟩ := before_of_notMem (hno ':' (by decide))
  refine ⟨?_, ?_⟩
  · simp only [SplitResult.rawHost, hinfo, hopen, hbefore, Bool.false_eq_true, if_false]
  · simp only [SplitResult.rawPort, hinfo, hopen, hafter, Bool.false_eq_true, if_false]

theorem hostname_url (t : Tables) : l.parts.hostname t = l.host := by
  have hraw := h.authority.1
  have hlower := (host_plain l.host h.host).2.2.2.1
  rw [hostname_ascii t (by rw [hraw]; exact h.isAscii_host) (by rw [hraw]; exact hlower), hraw]

/-- What is written is read as it is, if it is within the bound on targets. -/
theorem readOrigin_url (hc : c.Idna) (hlength : (encodeUtf8 (urlunsplit l.parts)).length ≤ maximumTargetBytes) :
    readOrigin c (urlunsplit l.parts) = .ok (l.parts, l.host) := by
  obtain ⟨-, -, -, hlower, hlabels, hstrip⟩ := host_plain l.host h.host
  have hnonempty : (urlunsplit l.parts).isEmpty = false := by
    rw [h.url_eq]
    rfl
  have hcontrol : (urlunsplit l.parts).any isControlChar = false := by
    rw [Bool.eq_false_iff, ne_eq, List.any_eq_true]
    intro ⟨ch, hch, hcontrol⟩
    have hprintable := h.isPrintable_url ch hch
    simp only [isPrintable, isControlChar, Bool.and_eq_true, decide_eq_true_eq, Bool.or_eq_true, beq_iff_eq] at hprintable hcontrol
    obtain hlow | hdelete := hcontrol
    · exact absurd (UInt32.lt_trans hprintable.1 hlow) (by decide)
    · rw [hdelete] at hprintable
      exact absurd hprintable.2 (by decide)
  have hidna : c.idna (l.parts.hostname c.toTables) = some l.host := by
    rw [h.hostname_url, hc.ofAscii h.isAscii_host, hlabels]
    rfl
  have hhost : rstrip '.' (c.lower l.host) = l.host := by
    rw [c.lower_ascii _ h.isAscii_host, hlower, hstrip]
  have hport : l.parts.port = some none := by
    rw [SplitResult.port, h.authority.2]
    rfl
  have horigin : c.lower l.parts.scheme = "https".toList ∧ String.ofList l.host ∈ youtubeHosts ∧ '@' ∉ l.parts.netloc ∧
      ((none : Option Nat) = none ∨ (none : Option Nat) = some 443) ∧ l.parts.fragment = [] := by
    refine ⟨?_, ofList_mem_iff.mpr h.host, fun hmem => ne_of_isSafe (h.host_safe _ hmem) (by decide) rfl, .inl rfl, rfl⟩
    have hscheme : c.lower "https".toList = asciiLower "https".toList := c.lower_ascii _ (by decide)
    exact hscheme
  have hguard : (!(urlunsplit l.parts).isEmpty && (encodeUtf8 (urlunsplit l.parts)).length ≤ maximumTargetBytes &&
      !(urlunsplit l.parts).any isControlChar) = true := by
    rw [hnonempty, hcontrol, decide_eq_true hlength]
    rfl
  simp only [readOrigin, bind_eq_ok, require_eq_ok, ofOption_eq_ok]
  refine ⟨(), hguard, l.parts, h.urlsplit_url _, l.host, hidna, none, hport, (), ?_, ?_⟩
  · rw [hhost]
    exact decide_eq_true horigin
  · rw [hhost]
    rfl

theorem parseQsl_url : parseQsl (urlencode l.safePairs) = l.safePairs :=
  parseQsl_urlencode fun pair hpair => (isQueryValue_plain (h.fields pair hpair).2).1

theorem keptPairs_url : keptPairs (urlencode l.safePairs) = l.safePairs := by
  rw [keptPairs, h.parseQsl_url, List.filter_eq_self]
  exact fun pair hpair => decide_eq_true (ofList_mem_iff.mpr (h.fields pair hpair).1)

theorem readPairs_url : readPairs (urlencode l.safePairs) = .ok l.safePairs := by
  have hcount : (urlencode l.safePairs).count '&' + 1 ≤ 16 := by
    have hfew := h.count
    cases hpairs : l.safePairs with
    | nil => decide
    | cons pair rest =>
      rw [hpairs, List.length_cons] at hfew
      rw [count_urlencode]
      omega
  have hkept := h.keptPairs_url
  rw [keptPairs, h.parseQsl_url] at hkept
  simp only [readPairs, bind_eq_ok, require_eq_ok, h.parseQsl_url, hkept, decide_eq_true_eq]
  exact ⟨(), hcount, (), h.count, (), List.all_eq_true.mpr fun pair hpair => (h.fields pair hpair).2, rfl⟩

/-- **A locator is read as it was written**, if it is within the bound on targets. -/
theorem readLocator_url (hc : c.Idna) (hlength : (encodeUtf8 (urlunsplit l.parts)).length ≤ maximumTargetBytes) :
    readLocator c (urlunsplit l.parts) = .ok l := by
  have hpath : (if l.path.isEmpty then ['/'] else l.path) = l.path := by
    have hroot := h.path_root
    cases hempty : l.path with
    | nil =>
      rw [hempty] at hroot
      cases hroot
    | cons ch rest => rfl
  have hvideo : (lastValue "v" l.safePairs).all (· = l.expectedVideoId) = true := by
    rw [Option.all_eq_true]
    exact fun value hvalue => decide_eq_true (h.video value hvalue)
  simp only [readLocator, bind_eq_ok, require_eq_ok]
  refine ⟨_, h.readOrigin_url hc hlength, _, h.readPairs_url, (l.path, l.expectedVideoId), ?_, (), hvideo, rfl⟩
  show readPath l.host (if l.path.isEmpty then ['/'] else l.path) l.safePairs = _
  rw [hpath]
  exact readPath_of_names h.id h.names

/-- The video is found in what is written, whatever its length. -/
theorem videoIdFromUrl_url : videoIdFromUrl c (urlunsplit l.parts) = .ok l.expectedVideoId := by
  obtain ⟨hne, -, hsafe⟩ := isVideoId_plain h.id
  have hslash := slash_notMem hsafe
  have hread : videoIdFromUrl c (urlunsplit l.parts) =
      if l.host = "youtu.be".toList then .ok (stripSlashes l.path)
      else if l.path = "/watch".toList then ofOption .keyError (lastValue "v" l.safePairs)
      else .ok (afterLast '/' (rstrip '/' l.path)) := by
    rw [videoIdFromUrl, h.urlsplit_url]
    show (if l.parts.hostname c.toTables = _ then _ else if l.path = _ then
      ofOption Raised.keyError (lastValue "v" (parseQsl (urlencode l.safePairs))) else _) = _
    rw [h.hostname_url, h.parseQsl_url]
    rfl
  rw [hread]
  cases h.names with
  | short hhost hpath =>
    have hend : rstrip '/' l.expectedVideoId = l.expectedVideoId := rstrip_of_notMem hne hslash []
    rw [if_pos hhost, hpath, stripSlashes, List.dropWhile_cons_of_pos (by decide), dropWhile_of_notMem hslash, hend]
  | watch hhost hpath hvalue =>
    rw [if_neg hhost, if_pos hpath, hvalue]
    rfl
  | embedded kind hhost hkind hpath =>
    rw [if_neg hhost, hpath, if_neg (embedded_ne_watch kind l.expectedVideoId)]
    have hcut : '/' :: kind ++ '/' :: l.expectedVideoId = ('/' :: kind ++ ['/']) ++ l.expectedVideoId := by
      rw [List.append_assoc]
      rfl
    rw [hcut, rstrip_of_notMem hne hslash, ← hcut, afterLast_append_cons hslash]

end Locator.WellFormed

/-! ### The page of a video -/

/-- A locator of a video and of nothing else. -/
def Locator.page (l : Locator) : Locator where
  host := l.host
  path := l.path
  safePairs := if l.path = "/watch".toList then [("v".toList, l.expectedVideoId)] else []
  expectedVideoId := l.expectedVideoId

namespace Locator.WellFormed
variable {l : Locator} (h : l.WellFormed)
include h

theorem page_wellFormed : l.page.WellFormed where
  host := h.host
  count := by
    show (if l.path = "/watch".toList then [("v".toList, l.expectedVideoId)] else []).length ≤ 8
    split
    · exact (by decide : 1 ≤ 8)
    · exact (by decide : 0 ≤ 8)
  fields := by
    intro pair hpair
    dsimp only [page] at hpair
    split at hpair
    · cases List.mem_singleton.mp hpair
      exact ⟨(by decide : "v".toList ∈ allowedQuery.map String.toList), isQueryValue_of_isVideoId h.id⟩
    · cases hpair
  id := h.id
  names := by
    cases h.names with
    | short hhost hpath => exact .short hhost hpath
    | watch hhost hpath hvalue =>
      refine .watch hhost hpath ?_
      show lastValue "v" (if l.path = "/watch".toList then [("v".toList, l.expectedVideoId)] else []) = some l.expectedVideoId
      rw [if_pos hpath]
      rfl
    | embedded kind hhost hkind hpath => exact .embedded kind hhost hkind hpath
  video := by
    intro value hvalue
    dsimp only [page] at hvalue
    split at hvalue
    · exact (Option.some.inj hvalue).symm
    · cases hvalue

theorem length_path : l.path.length ≤ 72 := by
  obtain ⟨-, hid, -⟩ := isVideoId_plain h.id
  cases h.names with
  | short hhost hpath =>
    rw [hpath, List.length_cons]
    omega
  | watch hhost hpath hvalue =>
    rw [hpath]
    decide
  | embedded kind hhost hkind hpath =>
    have hkindlength := (kind_plain kind hkind).2.1
    rw [hpath, List.length_append, List.length_cons, List.length_cons]
    omega

/-- The page is always within the bound on targets. -/
theorem length_page : (encodeUtf8 (urlunsplit l.page.parts)).length ≤ maximumTargetBytes := by
  obtain ⟨-, hid, hsafe⟩ := isVideoId_plain h.id
  have hcolon : l.expectedVideoId.count ':' = 0 := List.count_eq_zero.mpr fun hmem => ne_of_isSafe (hsafe _ hmem) (by decide) rfl
  have hhost := (host_plain l.host h.host).2.1
  have hpath := h.length_path
  have hpairs : (l.page.safePairs.map fun pair => pair.1.length + pair.2.length + 2 * pair.2.count ':' + 2).sum ≤ 67 := by
    dsimp only [page]
    split
    · simp only [List.map_cons, List.map_nil, List.sum_cons, List.sum_nil, hcolon]
      have hkey : "v".toList.length = 1 := by decide
      omega
    · exact Nat.zero_le _
  have hlength := h.page_wellFormed.length_url
  have hsame : l.page.host.length = l.host.length ∧ l.page.path.length = l.path.length := ⟨rfl, rfl⟩
  rw [hlength, hsame.1, hsame.2]
  show _ ≤ 2048
  omega

theorem canonical_url (hc : c.Idna) (hlength : (encodeUtf8 (urlunsplit l.parts)).length ≤ maximumTargetBytes) :
    canonicalYoutubeVideoUrl c (urlunsplit l.parts) = .ok (urlunsplit l.parts) := by
  rw [canonicalYoutubeVideoUrl, h.readLocator_url hc hlength]
  rfl

/-- What is given as the page of a video is the locator of that page. -/
theorem authoritative_url (hc : c.Idna) (hlength : (encodeUtf8 (urlunsplit l.parts)).length ≤ maximumTargetBytes) :
    authoritativeYoutubeVideoUrl c (urlunsplit l.parts) = .ok (urlunsplit l.page.parts) := by
  refine bind_eq_ok.mpr ⟨_, h.canonical_url hc hlength, bind_eq_ok.mpr ⟨l.parts, ofOption_eq_ok.mpr (h.urlsplit_url _), ?_⟩⟩
  have hparts : ∀ pairs, l.page.safePairs = pairs → l.page.parts = {l.parts with query := urlencode pairs} := fun _ hpage =>
    congrArg (fun pairs => {l.parts with query := urlencode pairs}) hpage
  by_cases hpath : l.parts.path = "/watch".toList
  · rw [if_pos hpath, h.videoIdFromUrl_url, hparts _ (if_pos hpath)]
    rfl
  · rw [if_neg hpath, hparts _ (if_neg hpath)]
    rfl

end Locator.WellFormed

/-! ### Metadata -/

section
variable {φ : Type} {isBounded : φ → Bool}

/-- Visible ASCII is left as it is. -/
theorem boundedText_plain {s : Text} {maximum : Nat} (h : ∀ ch ∈ s, 0x20 < ch.val ∧ ch.val < 0x7f)
    (hlength : s.length ≤ maximum) : boundedText s maximum = .ok s := by
  have hcleaned : s.filter (!isControl ·) = s := by
    rw [List.filter_eq_self]
    intro ch hch
    obtain ⟨hlow, hhigh⟩ := h ch hch
    simp only [isControl, Bool.not_eq_true', Bool.or_eq_false_iff, decide_eq_false_iff_not]
    omega
  have hencodable : Text.encodable s = true := List.all_eq_true.mpr fun ch hch => by
    have hhigh := (h ch hch).2
    simp only [CodePoint.isSurrogate, Bool.not_eq_true', Bool.and_eq_false_iff, decide_eq_false_iff_not]
    omega
  have hsize : Text.utf8Length s = s.length := by
    have hone : s.map CodePoint.utf8Size = s.map fun _ => 1 := List.map_congr_left fun ch hch => by
      have hhigh := (h ch hch).2
      rw [CodePoint.utf8Size, if_pos (by omega)]
    simp [Text.utf8Length, hone, List.map_const']
  have hencode : Utf8.encode s = some (s.flatMap Utf8.bytesOf) := if_pos hencodable
  have hbytes := Utf8.length_encode hencode
  simp only [boundedText, bind_eq_ok, ofOption_eq_ok, hcleaned]
  refine ⟨_, hencode, ?_⟩
  rw [if_pos (by omega)]
  rfl

theorem textOf_plain {id : List Char} (h : ∀ ch ∈ id, isSafe ch = true) : ∀ ch ∈ textOf id, 0x20 < ch.val ∧ ch.val < 0x7f := by
  intro ch hch
  obtain ⟨d, hd, rfl⟩ := List.mem_map.mp hch
  have hprintable := isPrintable_of_isSafe (h d hd)
  rw [isPrintable, Bool.and_eq_true, decide_eq_true_eq, decide_eq_true_eq] at hprintable
  have hlow : 0x20 < d.toNat := hprintable.1
  have hhigh : d.toNat < 0x7f := hprintable.2
  have hval : (CodePoint.ofChar d).val = d.toNat := Nat.mod_eq_of_lt (by omega)
  rw [hval]
  exact ⟨hlow, hhigh⟩

/-- Metadata that is let through has the identifier of the video it was asked for. -/
theorem projectMetadata_id {document : JsonValue φ} {sourceUrl id : List Char} {output : List (Text × JsonValue φ)}
    (hvideo : videoIdFromUrl c sourceUrl = .ok id) (hid : isVideoId id = true)
    (h : projectMetadata c isBounded document sourceUrl = .ok output) :
    JsonValue.get? output "id" = some (.string (textOf id)) := by
  obtain ⟨-, hlength, hsafe⟩ := isVideoId_plain hid
  unfold projectMetadata at h
  split at h
  · rename_i fields
    simp only [hvideo, bind_eq_ok, require_eq_ok, Except.ok.injEq, Bool.and_eq_true] at h
    obtain ⟨id', rfl, _, ⟨hsame, -⟩, scalars, hscalars, _, -, _, -, _, -, _, -, _, -, _, -, heq⟩ := h
    cases heq
    have hvalue : JsonValue.get? fields "id" = some (.string (textOf id)) := by
      unfold isText at hsame
      split at hsame
      · rename_i t ht
        rw [ht, of_decide_eq_true hsame]
      · cases hsame
    have hkept : safeScalar isBounded 2048 (.string (textOf id)) = .ok (some (.string (textOf id))) := by
      have hshort : (textOf id).length ≤ 2048 := by
        rw [textOf, List.length_map]
        omega
      rw [safeScalar, boundedText_plain (textOf_plain hsafe) hshort]
      rfl
    have hfirst : scalarFields = ("id", 2048) :: scalarFields.tail := by decide
    rw [hfirst] at hscalars
    simp only [safeFields, List.mapM_cons, bind_eq_ok, hvalue, Option.getD_some, hkept] at hscalars
    obtain ⟨found, ⟨first, ⟨value, hvalue', hfirst'⟩, rest, -, hfound⟩, hreturn⟩ := hscalars
    cases hvalue'
    cases hfirst'
    cases hfound
    cases hreturn
    simp [JsonValue.get?, List.reduceOption_cons_of_some]
  · cases h

end

/-! ### One video -/

variable (c) in
/-- A locator that names one video wherever it is read: it is its own canonical form, each of its `v`
parameters is the video, and so is what its page and its metadata are about. -/
structure NamesOneVideo (url id : List Char) : Prop where
  again : canonicalYoutubeVideoUrl c url = .ok url
  parameters : ∃ parsed, urlsplit c.toTables url = some parsed ∧
    ∀ pair ∈ parseQsl parsed.query, pair.1 = "v".toList → pair.2 = id
  video : videoIdFromUrl c url = .ok id
  page : ∃ page l, authoritativeYoutubeVideoUrl c url = .ok page ∧ readLocator c page = .ok l ∧ l.expectedVideoId = id
  metadata : ∀ {φ : Type} (isBounded : φ → Bool) (document : JsonValue φ) (output : List (Text × JsonValue φ)),
    projectMetadata c isBounded document url = .ok output → JsonValue.get? output "id" = some (.string (textOf id))

variable (c) in
/-- How long a target is once it is written with its colons escaped. -/
def spelledLength (parsed : SplitResult) : Nat :=
  8 + (hostOf c parsed).length + segmentLength parsed.path +
    ((keptPairs parsed.query).map fun pair => pair.1.length + pair.2.length + 2 * pair.2.count ':' + 2).sum

variable (c) in
/-- The `v` parameters of a target agree, and it is short enough with its colons escaped. -/
structure NamesOnce (target : List Char) : Prop where
  once : ∀ parsed, urlsplit c.toTables target = some parsed → ∀ pair ∈ parseQsl parsed.query, ∀ pair' ∈ parseQsl parsed.query,
    pair.1 = "v".toList → pair'.1 = "v".toList → pair.2 = pair'.2
  short : ∀ parsed, urlsplit c.toTables target = some parsed → spelledLength c parsed ≤ maximumTargetBytes

theorem mem_keptPairs_video {query : List Char} {pair : List Char × List Char} (hkey : pair.1 = "v".toList) :
    pair ∈ keptPairs query ↔ pair ∈ parseQsl query := by
  have hallowed : String.ofList pair.1 ∈ allowedQuery := by
    rw [hkey]
    decide
  rw [keptPairs, List.mem_filter, decide_eq_true_eq]
  exact and_iff_left hallowed

theorem lastValue_mem {key : String} {pairs : List (List Char × List Char)} {value : List Char}
    (h : lastValue key pairs = some value) : (key.toList, value) ∈ pairs := by
  obtain ⟨pair, hpair, rfl⟩ := Option.map_eq_some_iff.mp h
  have hfound := List.find?_some hpair
  have hkey : pair.1 = key.toList := of_decide_eq_true hfound
  rw [← hkey]
  exact List.mem_reverse.mp (List.mem_of_find?_eq_some hpair)

theorem lastValue_isSome {key : String} {pairs : List (List Char × List Char)} {pair : List Char × List Char}
    (hpair : pair ∈ pairs) (hkey : pair.1 = key.toList) : ∃ value, lastValue key pairs = some value := by
  have hfound : (pairs.reverse.find? (·.1 = key.toList)).isSome = true :=
    List.find?_isSome.mpr ⟨pair, List.mem_reverse.mpr hpair, decide_eq_true hkey⟩
  obtain ⟨found, hfound⟩ := Option.isSome_iff_exists.mp hfound
  exact ⟨found.2, congrArg (Option.map Prod.snd) hfound⟩

/-- **A target that is accepted names one video wherever it is read, if its `v` parameters agree and it is
short enough once it is written, and only then.** -/
theorem canonical_names_one_video_iff (hc : c.Idna) {target url : List Char}
    (h : canonicalYoutubeVideoUrl c target = .ok url) :
    (∃ l, readLocator c target = .ok l ∧ NamesOneVideo c url l.expectedVideoId) ↔ NamesOnce c target := by
  obtain ⟨l, hl, hreturn⟩ := bind_eq_ok.mp h
  have hurl : urlunsplit l.parts = url := Except.ok.inj hreturn
  obtain ⟨-, hwell, parsed, hparsed, hhost, hpath, hpairs⟩ := readLocator_eq_ok hl
  have hlength : (encodeUtf8 url).length = spelledLength c parsed := by
    rw [← hurl, hwell.length_url, hhost, hpath, hpairs]
    rfl
  have hsplit : urlsplit c.toTables url = some l.parts := hurl ▸ hwell.urlsplit_url c.toTables
  have honly : ∀ parsed', urlsplit c.toTables target = some parsed' → parsed' = parsed := fun parsed' hparsed' =>
    Option.some.inj (hparsed'.symm.trans hparsed)
  constructor
  · intro ⟨l', hl', hnames⟩
    cases hl.symm.trans hl'
    obtain ⟨parsed', hparsed', hvideo⟩ := hnames.parameters
    cases hsplit.symm.trans hparsed'
    have hall : ∀ pair ∈ parseQsl parsed.query, pair.1 = "v".toList → pair.2 = l.expectedVideoId := by
      intro pair hpair hkey
      have hmem : pair ∈ l.safePairs := hpairs ▸ (mem_keptPairs_video hkey).mpr hpair
      exact hvideo pair (hwell.parseQsl_url.symm ▸ hmem) hkey
    refine ⟨fun parsed' hparsed' pair hpair pair' hpair' hkey hkey' => ?_, fun parsed' hparsed' => ?_⟩
    · rw [honly parsed' hparsed'] at hpair hpair'
      rw [hall pair hpair hkey, hall pair' hpair' hkey']
    · obtain ⟨again, hagain, -⟩ := bind_eq_ok.mp hnames.again
      rw [honly parsed' hparsed', ← hlength]
      exact (readLocator_eq_ok hagain).1
  · intro honce
    have hshort : (encodeUtf8 (urlunsplit l.parts)).length ≤ maximumTargetBytes := by
      rw [hurl, hlength]
      exact honce.short parsed hparsed
    refine ⟨l, hl, ?_⟩
    rw [← hurl]
    refine ⟨hwell.canonical_url hc hshort, ⟨l.parts, hwell.urlsplit_url _, fun pair hpair hkey => ?_⟩,
      hwell.videoIdFromUrl_url, ⟨_, l.page, hwell.authoritative_url hc hshort,
        hwell.page_wellFormed.readLocator_url hc hwell.length_page, rfl⟩, fun isBounded document output houtput => ?_⟩
    · have hmem : pair ∈ l.safePairs := hwell.parseQsl_url ▸ hpair
      -- The last `v` is the video, and the others agree with it.
      obtain ⟨value, hvalue⟩ := lastValue_isSome hmem hkey
      have hlast := lastValue_mem hvalue
      rw [hpairs] at hmem hlast
      rw [honce.once parsed hparsed pair ((mem_keptPairs_video hkey).mp hmem) ("v".toList, value)
        ((mem_keptPairs_video rfl).mp hlast) hkey rfl]
      exact hwell.video value hvalue
    · exact projectMetadata_id hwell.videoIdFromUrl_url hwell.id houtput

/-- A locator of the usual kind. -/
theorem canonical_names_one_video_watch :
    ∃ l, readLocator plainCodecs "https://WWW.youtube.com/watch?feature=share&v=abc_123".toList = .ok l ∧
      NamesOneVideo plainCodecs "https://www.youtube.com/watch?v=abc_123".toList l.expectedVideoId := by
  have hread : (urlsplit plainCodecs.toTables "https://WWW.youtube.com/watch?feature=share&v=abc_123".toList).map
      (fun parsed => (parseQsl parsed.query, spelledLength plainCodecs parsed)) =
        some ([("feature".toList, "share".toList), ("v".toList, "abc_123".toList)], 39) := by decide +kernel
  refine (canonical_names_one_video_iff plainCodecs_idna (by decide +kernel)).mpr ⟨?_, ?_⟩
  · intro parsed hparsed pair hpair pair' hpair' hkey hkey'
    rw [hparsed, Option.map_some, Option.some.injEq, Prod.mk.injEq] at hread
    rw [hread.1] at hpair hpair'
    have honly : ∀ pair ∈ [("feature".toList, "share".toList), ("v".toList, "abc_123".toList)],
        pair.1 = "v".toList → pair.2 = "abc_123".toList := by decide
    rw [honly pair hpair hkey, honly pair' hpair' hkey']
  · intro parsed hparsed
    rw [hparsed, Option.map_some, Option.some.injEq, Prod.mk.injEq] at hread
    rw [hread.2]
    decide

/-- Both of two videos are written, though the second is the one that counts. -/
theorem repeated_video_written : ¬ ∀ (c : Codecs), c.Idna → ∀ target url l, canonicalYoutubeVideoUrl c target = .ok url →
    readLocator c target = .ok l → NamesOneVideo c url l.expectedVideoId := by
  intro h
  have hurl : canonicalYoutubeVideoUrl plainCodecs "https://www.youtube.com/watch?v=aaa&v=bbb".toList =
      .ok "https://www.youtube.com/watch?v=aaa&v=bbb".toList := by decide +kernel
  have hl : readLocator plainCodecs "https://www.youtube.com/watch?v=aaa&v=bbb".toList = .ok ⟨"www.youtube.com".toList,
      "/watch".toList, [("v".toList, "aaa".toList), ("v".toList, "bbb".toList)], "bbb".toList⟩ := by decide +kernel
  have hnames := h plainCodecs plainCodecs_idna _ _ _ hurl hl
  obtain ⟨parsed, hparsed, hvideo⟩ := hnames.parameters
  have hquery : (urlsplit plainCodecs.toTables "https://www.youtube.com/watch?v=aaa&v=bbb".toList).map
      (fun parsed => parseQsl parsed.query) = some [("v".toList, "aaa".toList), ("v".toList, "bbb".toList)] := by decide +kernel
  rw [hparsed, Option.map_some, Option.some.injEq] at hquery
  rw [hquery] at hvideo
  exact absurd (hvideo _ List.mem_cons_self rfl) (by decide)

end Fetech.YtDlp
