import Fetech.Documents

/-! What an authenticated output hides of the queries of its URLs (`fetech/security.py`).

Two documents that differ only in query values should look the same once sanitised. As the
whole value of a URL field a URL is parsed, and every value is replaced. In free text it is
found by a regular expression, which ends at the first blank, angle bracket or quote, and
whose last punctuation is given back: a value behind such a character, or the punctuation
that ends it, is not part of the URL any more. `Sealed` is a URL to which neither happens. -/
namespace Fetech.Documents
open Lib.Url

/-! ### Queries that differ in values -/

/-- A value that is not empty when it is parsed: tabs and line breaks do not count. -/
def IsValue (v : List Char) : Prop := ∃ ch ∈ v, isKept ch = true

/-- Two pieces of a query, between ampersands: the same, or two values of one name. -/
def SamePiece (p p' : List Char) : Prop :=
  p = p' ∨ (before '=' p = before '=' p' ∧ IsValue (after '=' p) ∧ IsValue (after '=' p'))

/-- Two queries that differ only in values that are not empty. -/
def SameQuery (q q' : List Char) : Prop := List.Forall₂ SamePiece (q.splitOn '&') (q'.splitOn '&')

theorem splitOn_cons (c : Char) (q : List Char) :
    (c :: q).splitOn '&' = if c = '&' then [] :: q.splitOn '&' else (q.splitOn '&').modifyHead (c :: ·) := by
  have h := List.splitOnP_cons_eq_if_modifyHead (p := (· == '&')) c q
  simpa [List.splitOn] using h

theorem SamePiece.cons {p p' : List Char} (h : SamePiece p p') (c : Char) : SamePiece (c :: p) (c :: p') := by
  obtain rfl | ⟨hname, ⟨ch, hch, hkept⟩, ch', hch', hkept'⟩ := h
  · exact .inl rfl
  · have hmem : ∀ (q : List Char), after '=' q ⊆ q := fun q =>
      (List.Sublist.trans (List.tail_sublist _) (List.dropWhile_sublist _)).subset
    by_cases hc : c = '='
    · subst hc
      exact .inr ⟨by simp [before], ⟨ch, by simpa [after] using hmem p hch, hkept⟩,
        ch', by simpa [after] using hmem p' hch', hkept'⟩
    · have hne : (c != '=') = true := by simpa using hc
      refine .inr ⟨?_, ⟨ch, ?_, hkept⟩, ch', ?_, hkept'⟩
      · simp only [before, List.takeWhile_cons, hne, if_true]
        exact congrArg (c :: ·) hname
      · simpa only [after, List.dropWhile_cons, hne, if_true] using hch
      · simpa only [after, List.dropWhile_cons, hne, if_true] using hch'

/-- Whatever stands before them in a query, they differ only in values. -/
theorem SameQuery.append {q q' : List Char} (h : SameQuery q q') (front : List Char) :
    SameQuery (front ++ q) (front ++ q') := by
  induction front with
  | nil => exact h
  | cons c front ih =>
    unfold SameQuery at ih ⊢
    rw [List.cons_append, List.cons_append, splitOn_cons, splitOn_cons]
    split
    · exact .cons (.inl rfl) ih
    · generalize (front ++ q).splitOn '&' = l, (front ++ q').splitOn '&' = l' at ih ⊢
      cases ih with
      | nil => exact .nil
      | cons hhead htail => exact .cons (hhead.cons c) htail

/-- Tabs and line breaks go from every piece. -/
theorem splitOn_filter (q : List Char) : (q.filter isKept).splitOn '&' = (q.splitOn '&').map (List.filter isKept) := by
  induction q with
  | nil => rfl
  | cons c q ih =>
    by_cases hc : c = '&'
    · subst hc
      have hkept : isKept '&' = true := by decide
      rw [List.filter_cons, if_pos hkept, splitOn_cons, if_pos rfl, ih, splitOn_cons, if_pos rfl]
      rfl
    · rw [splitOn_cons, if_neg hc, List.filter_cons]
      have hhead : ∀ l : List (List Char), (l.modifyHead (c :: ·)).map (List.filter isKept) =
          if isKept c then (l.map (List.filter isKept)).modifyHead (c :: ·) else l.map (List.filter isKept) := by
        intro l
        cases l with
        | nil => split <;> rfl
        | cons p l =>
          simp only [List.modifyHead_cons, List.map_cons, List.filter_cons]
          split <;> rfl
      rw [hhead]
      split
      · rw [splitOn_cons, if_neg hc, ih]
      · exact ih

theorem filter_before_after (p : List Char) :
    before '=' (p.filter isKept) = (before '=' p).filter isKept ∧
      after '=' (p.filter isKept) = (after '=' p).filter isKept := by
  induction p with
  | nil => exact ⟨rfl, rfl⟩
  | cons c p ih =>
    by_cases hc : c = '='
    · subst hc
      have hkept : isKept '=' = true := by decide
      simp [before, after, hkept]
    · have hne : (c != '=') = true := by simpa using hc
      simp only [before, after] at ih ⊢
      by_cases hkept : isKept c = true
      · simp [hkept, hne, ih.1, ih.2]
      · simp [hkept, hne, ih.1, ih.2]

theorem SamePiece.filter {p p' : List Char} (h : SamePiece p p') : SamePiece (p.filter isKept) (p'.filter isKept) := by
  obtain rfl | ⟨hname, ⟨ch, hch, hkept⟩, ch', hch', hkept'⟩ := h
  · exact .inl rfl
  · rw [SamePiece, (filter_before_after p).1, (filter_before_after p).2, (filter_before_after p').1,
      (filter_before_after p').2, hname]
    exact .inr ⟨rfl, ⟨ch, List.mem_filter.mpr ⟨hch, hkept⟩, hkept⟩, ch', List.mem_filter.mpr ⟨hch', hkept'⟩, hkept'⟩

theorem SameQuery.filter {q q' : List Char} (h : SameQuery q q') : SameQuery (q.filter isKept) (q'.filter isKept) := by
  rw [SameQuery, splitOn_filter, splitOn_filter, List.forall₂_map_left_iff, List.forall₂_map_right_iff]
  exact List.Forall₂.imp (fun _ _ hpiece => hpiece.filter) h

theorem SamePiece.name {p p' : List Char} (h : SamePiece p p') :
    (parsePair p).map Prod.fst = (parsePair p').map Prod.fst := by
  obtain rfl | ⟨hname, ⟨ch, hch, -⟩, ch', hch', -⟩ := h
  · rfl
  · have hvalue : (after '=' p).isEmpty = false := by
      simpa using List.ne_nil_of_mem hch
    have hvalue' : (after '=' p').isEmpty = false := by
      simpa using List.ne_nil_of_mem hch'
    simp only [parsePair, hvalue, hvalue', Bool.false_eq_true, if_false, Option.map_some, hname]

theorem names_of_samePieces {l l' : List (List Char)} (h : List.Forall₂ SamePiece l l') :
    (l.filterMap parsePair).map Prod.fst = (l'.filterMap parsePair).map Prod.fst := by
  rw [List.map_filterMap, List.map_filterMap]
  induction h with
  | nil => rfl
  | cons hpiece _ ih => rw [List.filterMap_cons, List.filterMap_cons, hpiece.name, ih]

/-- **With every value redacted, a query shows its names only.** -/
theorem SameQuery.sanitized {q q' : List Char} (h : SameQuery q q') (c : Codecs) :
    sanitizeQuery c true q = sanitizeQuery c true q' := by
  have hshape : ∀ query, sanitizeQuery c true query =
      urlencode (((parseQsl query).map Prod.fst).map fun name => (name, redacted.toList)) := by
    intro query
    rw [List.map_map]
    rfl
  rw [hshape, hshape, parseQsl, parseQsl, names_of_samePieces h]

/-! ### One URL -/

/-- What may follow a query: nothing, or a fragment. -/
def EndsQuery (tail : List Char) : Prop := tail = [] ∨ tail.head? = some '#'

theorem urlunsplit_query (p : SplitResult) (query : List Char) :
    urlunsplit {p with query, fragment := []} = urlunsplit {p with query := [], fragment := []} ++ withQuery query := by
  simp only [urlunsplit, joinAuthority, withQuery, List.isEmpty_nil, if_true]
  split
  · rw [List.append_nil]
  · rfl

/-- The path and the query that are read after an authority: fixed, where the fragment begins
before the query, or the query after what was one already. -/
theorem splitRest_query (scheme netloc rest : List Char) {tail : List Char} (htail : EndsQuery tail) :
    (∃ path query, ∀ q, '#' ∉ q → ∃ fragment, splitRest scheme netloc (rest ++ '?' :: (q ++ tail).filter isKept) =
      {scheme, netloc, path, query, fragment}) ∨
    ∃ path asked, ∀ q, '#' ∉ q → ∃ fragment, splitRest scheme netloc (rest ++ '?' :: (q ++ tail).filter isKept) =
      {scheme, netloc, path, query := asked ++ q.filter isKept, fragment} := by
  have hbefore : ∀ q : List Char, '#' ∉ q →
      before '#' ('?' :: (q ++ tail).filter isKept) = '?' :: q.filter isKept := by
    intro q hq
    have hmem : '#' ∉ '?' :: q.filter isKept := by
      rw [List.mem_cons, not_or]
      exact ⟨by decide, fun hmem => hq (List.mem_of_mem_filter hmem)⟩
    have hend : before '#' (tail.filter isKept) = [] := by
      obtain rfl | htail := htail
      · rfl
      · cases tail with
        | nil => rfl
        | cons ch rest =>
          cases htail
          rfl
    rw [List.filter_append, ← List.cons_append, before_append, if_neg hmem, hend, List.append_nil]
  by_cases hhash : '#' ∈ rest
  · left
    refine ⟨before '?' (before '#' rest), after '?' (before '#' rest), fun q hq =>
      ⟨after '#' (rest ++ '?' :: (q ++ tail).filter isKept), ?_⟩⟩
    rw [splitRest, before_append, if_pos hhash]
  · right
    by_cases hmark : '?' ∈ rest
    · refine ⟨before '?' rest, after '?' rest ++ ['?'], fun q hq =>
        ⟨after '#' (rest ++ '?' :: (q ++ tail).filter isKept), ?_⟩⟩
      rw [splitRest, before_append, if_neg hhash, hbefore q hq, before_append, after_append, if_pos hmark, if_pos hmark,
        List.append_assoc]
      rfl
    · refine ⟨rest, [], fun q hq => ⟨after '#' (rest ++ '?' :: (q ++ tail).filter isKept), ?_⟩⟩
      rw [splitRest, before_append, if_neg hhash, hbefore q hq, before_append, after_append, if_neg hmark, if_neg hmark]
      simp [before, after]

/-- **What is shown of a URL with a query**, as far as it depends on the query: not at all,
where the URL cannot be read or its fragment begins before, or by the query that is shown. -/
theorem sanitizeUrlField_query (c : Codecs) (redactQuery : Bool) (front : List Char) {tail : List Char}
    (htail : EndsQuery tail) :
    (∀ q q', '#' ∉ q → '#' ∉ q' →
      (sanitizeUrlField c redactQuery (String.ofList (front ++ '?' :: (q ++ tail)))).toList =
        (sanitizeUrlField c redactQuery (String.ofList (front ++ '?' :: (q' ++ tail)))).toList) ∨
    ∃ shown asked, ∀ q, '#' ∉ q → (sanitizeUrlField c redactQuery (String.ofList (front ++ '?' :: (q ++ tail)))).toList =
      shown ++ withQuery (sanitizeQuery c redactQuery (asked ++ q.filter isKept)) := by
  unfold sanitizeUrlField sanitizeUrl
  simp only [String.toList_ofList, urlsplit_query]
  generalize (splitScheme [] (clean front)).1 = scheme
  generalize splitAuthority (splitScheme [] (clean front)).2 = authority
  obtain ⟨netloc, rest⟩ := authority
  dsimp only
  by_cases hok : (bracketsOk c.toTables netloc && netlocOk c.toTables netloc) = true
  · simp only [hok, if_true, Option.bind_eq_bind, Option.bind_some]
    -- Host and port are read off the authority.
    obtain ⟨host, hhost⟩ : ∃ host, ∀ path query fragment,
        SplitResult.hostname c.toTables {scheme, netloc, path, query, fragment} = host :=
      ⟨SplitResult.hostname c.toTables {scheme, netloc, path := [], query := [], fragment := []}, fun _ _ _ => rfl⟩
    have hport : ∀ path query fragment, SplitResult.port {scheme, netloc, path, query, fragment} =
        SplitResult.port {scheme, netloc, path := [], query := [], fragment := []} := fun _ _ _ => rfl
    cases hvalid : SplitResult.port {scheme, netloc, path := [], query := [], fragment := []} with
    | none =>
      left
      intro q q' _ _
      have hnone : ∀ q, (splitRest scheme netloc (rest ++ '?' :: (q ++ tail).filter isKept)).port = none := fun _ => hvalid
      rw [hnone, hnone, Option.bind_none, Option.bind_none]
    | some port =>
      obtain ⟨path, query, hfixed⟩ | ⟨path, asked, hasked⟩ := splitRest_query scheme netloc rest htail
      · left
        intro q q' hq hq'
        obtain ⟨fragment, hq⟩ := hfixed q hq
        obtain ⟨fragment', hq'⟩ := hfixed q' hq'
        rw [hq, hq', hport path query fragment, hport path query fragment', hhost path query fragment,
          hhost path query fragment']
      · right
        apply Exists.intro
        refine ⟨asked, fun q hq => ?_⟩
        obtain ⟨fragment, hasked⟩ := hasked q hq
        rw [hasked, hport, hvalid, hhost, Option.bind_some]
        simp only [pure, Option.getD_some, String.toList_ofList]
        exact urlunsplit_query ⟨_, _, _, [], []⟩ _
  · left
    intro q q' _ _
    rw [if_neg hok, if_neg hok]

/-- **Whatever stands before the query, a URL with all values redacted does not depend on
them.** -/
theorem sanitizeUrlField_same {c : Codecs} {q q' tail : List Char} (h : SameQuery q q') (hq : '#' ∉ q) (hq' : '#' ∉ q')
    (htail : EndsQuery tail) (front : List Char) :
    sanitizeUrlField c true (String.ofList (front ++ '?' :: (q ++ tail))) =
      sanitizeUrlField c true (String.ofList (front ++ '?' :: (q' ++ tail))) := by
  apply String.toList_injective
  obtain hfixed | ⟨shown, asked, hshown⟩ := sanitizeUrlField_query c true front htail
  · exact hfixed q q' hq hq'
  · rw [hshown q hq, hshown q' hq', (h.filter.append asked).sanitized c]

/-! ### Where the scan finds a URL -/

/-- What may stand after a run: nothing, or what ends it. -/
def EndsRun (rest : List Char) : Prop := ∀ ch ∈ rest.head?, isDelimiter ch = true

theorem toLower_delimiter {d : Char} (hd : isDelimiter d = true) : d.toLower = d := by
  unfold Char.toLower
  split
  · rename_i hupper
    exfalso
    have h1 : 65 ≤ d.toNat := hupper.1
    have h2 : d.toNat ≤ 90 := hupper.2
    simp only [isDelimiter, isSpace, Bool.or_eq_true, Bool.and_eq_true, decide_eq_true_eq, beq_iff_eq,
      UInt32.le_iff_toNat_le, ← UInt32.toNat_inj, Char.ext_iff] at hd
    simp at hd
    omega
  · rfl

/-- Nothing in it ends a URL. -/
def Solid (s : List Char) : Prop := ∀ ch ∈ s, isDelimiter ch = false

theorem solid_of_all {s : List Char} (h : (s.all fun ch => !isDelimiter ch) = true) : Solid s := by
  intro ch hch
  simpa using List.all_eq_true.mp h ch hch

/-- The letters of the pattern are none of the characters that end a URL. -/
theorem matchesLetter_delimiter {letter d : Char} (hletter : letter ∈ "https:/".toList) (hd : isDelimiter d = true) :
    matchesLetter letter d = false := by
  have hsolid : Solid ('ſ' :: "https:/".toList) := solid_of_all (by decide)
  unfold matchesLetter
  rw [toLower_delimiter hd]
  by_contra hmatch
  simp only [Bool.not_eq_false, Bool.or_eq_true, Bool.and_eq_true, beq_iff_eq] at hmatch
  obtain rfl | ⟨-, rfl⟩ := hmatch
  · rw [hsolid d (List.mem_cons_of_mem _ hletter)] at hd
    cases hd
  · rw [hsolid 'ſ' (List.mem_cons_self ..)] at hd
    cases hd

theorem opensWith_append {letters : List Char} (hletters : letters ⊆ "https:/".toList) (s : List Char) {rest : List Char}
    (hrest : EndsRun rest) : opensWith letters (s ++ rest) = opensWith letters s := by
  induction letters generalizing s with
  | nil =>
    cases s with
    | nil =>
      cases rest with
      | nil => rfl
      | cons d rest => simp [opensWith, hrest d rfl]
    | cons ch s => rfl
  | cons letter letters ih =>
    obtain ⟨hletter, hletters⟩ := List.cons_subset.mp hletters
    cases s with
    | nil =>
      cases rest with
      | nil => rfl
      | cons d rest => simp [opensWith, matchesLetter_delimiter hletter (hrest d rfl)]
    | cons ch s => simp only [List.cons_append, opensWith, ih hletters]

theorem startsUrl_append (s : List Char) {rest : List Char} (hrest : EndsRun rest) :
    startsUrl (s ++ rest) = startsUrl s := by
  unfold startsUrl
  rw [opensWith_append (by decide) s hrest, opensWith_append (by decide) s hrest]

/-- A match needs its letters and one character more, and looks no further. -/
theorem opensWith_long {letters s : List Char} (h : letters.length < s.length) (rest : List Char) :
    opensWith letters (s ++ rest) = opensWith letters s := by
  induction letters generalizing s with
  | nil =>
    cases s with
    | nil => simp at h
    | cons ch s => rfl
  | cons letter letters ih =>
    cases s with
    | nil => simp at h
    | cons ch s =>
      simp only [List.cons_append, opensWith]
      rw [ih (by simpa using h)]

theorem length_of_opensWith {letters s : List Char} (h : opensWith letters s = true) : letters.length < s.length := by
  induction letters generalizing s with
  | nil =>
    cases s with
    | nil => simp [opensWith] at h
    | cons ch s => simp
  | cons letter letters ih =>
    cases s with
    | nil => simp [opensWith] at h
    | cons ch s =>
      simp only [opensWith, Bool.and_eq_true] at h
      simpa using ih h.2

/-- A URL starts somewhere in the text, one character of it at least. -/
def HasStart (s : List Char) : Prop := ∃ m, m <:+ s ∧ startsUrl m = true

theorem HasStart.length {s : List Char} (h : HasStart s) : 8 ≤ s.length := by
  obtain ⟨m, hsuffix, hm⟩ := h
  have hle := hsuffix.length_le
  rw [startsUrl, Bool.or_eq_true] at hm
  obtain hm | hm := hm
  · have := length_of_opensWith hm
    simp at this
    omega
  · have := length_of_opensWith hm
    simp at this
    omega

theorem startsUrl_mono {s : List Char} (h : startsUrl s = true) (rest : List Char) : startsUrl (s ++ rest) = true := by
  rw [startsUrl, Bool.or_eq_true] at h ⊢
  obtain h | h := h
  · exact .inl ((opensWith_long (length_of_opensWith h) rest).trans h)
  · exact .inr ((opensWith_long (length_of_opensWith h) rest).trans h)

/-- Where a text has a start, what follows one more character does not move it. -/
theorem HasStart.startsUrl_eq {s : List Char} (h : HasStart s) (ch : Char) (rest : List Char) :
    startsUrl (s ++ ch :: rest) = startsUrl (s ++ [ch]) := by
  have hlen : ∀ letters : List Char, letters.length ≤ 8 → letters.length < (s ++ [ch]).length := by
    intro letters hletters
    have := h.length
    rw [List.length_append, List.length_singleton]
    omega
  rw [List.append_cons, startsUrl, opensWith_long (hlen _ (by decide)), opensWith_long (hlen _ (by decide))]
  rfl

/-! ### One run of text -/

/-- The scan of a text in which nothing ends a URL: from the first start on it is one URL. -/
def scanRun (c : Codecs) : List Char → List Char
  | [] => []
  | ch :: rest => if startsUrl (ch :: rest) then replaceUrl c (ch :: rest) else ch :: scanRun c rest

/-- The scan run by run, `run` being the one that is being read, backwards. -/
def scanRuns (c : Codecs) (run : List Char) : List Char → List Char
  | [] => scanRun c run.reverse
  | ch :: rest =>
    if isDelimiter ch then scanRun c run.reverse ++ ch :: scanRuns c [] rest else scanRuns c (ch :: run) rest

theorem scanText_skip (c : Codecs) (s rest : List Char) : scanText c s.length (s ++ rest) = scanText c 0 rest := by
  induction s with
  | nil => rfl
  | cons ch s ih => exact ih

theorem scanText_solid (c : Codecs) {s rest : List Char} (hs : Solid s) (hrest : EndsRun rest) :
    scanText c 0 (s ++ rest) = scanRun c s ++ scanText c 0 rest := by
  induction s with
  | nil => rfl
  | cons ch s ih =>
    have htail : Solid s := fun x hx => hs x (List.mem_cons_of_mem ch hx)
    have hstart := startsUrl_append (ch :: s) hrest
    have hrun : (ch :: (s ++ rest)).takeWhile (!isDelimiter ·) = ch :: s := by
      rw [← List.cons_append, List.takeWhile_append_of_pos fun x hx => by simp [hs x hx]]
      cases rest with
      | nil => simp
      | cons d rest => simp [hrest d rfl]
    rw [List.cons_append] at hstart ⊢
    rw [scanText, hstart, scanRun]
    split
    · dsimp only
      rw [hrun, List.length_cons, Nat.add_sub_cancel, scanText_skip]
    · rw [ih htail]
      rfl

theorem scanText_eq_scanRuns (c : Codecs) (text run : List Char) (hrun : Solid run) :
    scanText c 0 (run.reverse ++ text) = scanRuns c run text := by
  induction text generalizing run with
  | nil =>
    have h := @scanText_solid c run.reverse [] (by simpa [Solid] using hrun) (by simp [EndsRun])
    rw [h, scanText, List.append_nil]
    rfl
  | cons ch text ih =>
    by_cases hch : isDelimiter ch = true
    · have hends : EndsRun (ch :: text) := by simpa [EndsRun] using hch
      have h := @scanText_solid c run.reverse (ch :: text) (by simpa [Solid] using hrun) hends
      have hnot : startsUrl (ch :: text) = false := startsUrl_append [] hends
      rw [h, scanRuns, if_pos hch, scanText, hnot, ← ih [] (by simp [Solid])]
      rfl
    · rw [scanRuns, if_neg hch, ← ih (ch :: run) (by simpa [Solid, hch] using hrun)]
      simp

/-- Punctuation is given back up to a character that is none. -/
theorem replaceUrl_append (c : Codecs) (s rest : List Char) {ch : Char} (hch : isTrailing ch = false) :
    replaceUrl c (s ++ ch :: rest) =
      (sanitizeUrlField c true (String.ofList (s ++ ch :: (rest.reverse.dropWhile isTrailing).reverse))).toList ++
        (rest.reverse.takeWhile isTrailing).reverse := by
  have htake : ∀ l : List Char, (l ++ ch :: s.reverse).takeWhile isTrailing = l.takeWhile isTrailing ∧
      (l ++ ch :: s.reverse).dropWhile isTrailing = l.dropWhile isTrailing ++ ch :: s.reverse := by
    intro l
    induction l with
    | nil => simp [hch]
    | cons x l ih =>
      by_cases hx : isTrailing x = true
      · simpa [hx] using ih
      · simp [hx]
  have hreverse : (s ++ ch :: rest).reverse = rest.reverse ++ ch :: s.reverse := by simp
  unfold replaceUrl
  rw [hreverse, (htake rest.reverse).1, (htake rest.reverse).2]
  simp

/-- The query ends in nothing that is given back, or a fragment follows it. -/
def Closed (q tail : List Char) : Prop := tail.head? = some '#' ∨ (tail = [] ∧ ∀ ch ∈ q.getLast?, isTrailing ch = false)

/-- A closed URL in text is sanitised like a field, and what is given back is part of its
fragment. -/
theorem replaceUrl_closed (c : Codecs) (front : List Char) {q tail : List Char} (h : Closed q tail) :
    ∃ tail' trailing, EndsQuery tail' ∧ ∀ q', Closed q' tail → replaceUrl c (front ++ '?' :: (q' ++ tail)) =
      (sanitizeUrlField c true (String.ofList (front ++ '?' :: (q' ++ tail')))).toList ++ trailing := by
  obtain hhash | ⟨rfl, -⟩ := h
  · obtain ⟨rest, rfl⟩ : ∃ rest, tail = '#' :: rest := by
      cases tail with
      | nil => cases hhash
      | cons ch rest =>
        cases hhash
        exact ⟨rest, rfl⟩
    refine ⟨'#' :: (rest.reverse.dropWhile isTrailing).reverse, (rest.reverse.takeWhile isTrailing).reverse, .inr rfl,
      fun q' _ => ?_⟩
    have h := @replaceUrl_append c (front ++ '?' :: q') rest '#' (by decide)
    simpa using h
  · refine ⟨[], [], .inl rfl, fun q' hq' => ?_⟩
    have hlast : ∀ ch ∈ q'.getLast?, isTrailing ch = false := by
      obtain hhash | ⟨-, hlast⟩ := hq'
      · cases hhash
      · exact hlast
    rw [List.append_nil, List.append_nil]
    obtain rfl | ⟨q'', ch, rfl⟩ := q'.eq_nil_or_concat
    · have h := @replaceUrl_append c front [] '?' (by decide)
      simpa using h
    · have h := replaceUrl_append c (front ++ '?' :: q'') [] (hlast ch (by simp))
      simpa using h

theorem replaceUrl_same {c : Codecs} {q q' tail : List Char} (h : SameQuery q q') (hq : '#' ∉ q) (hq' : '#' ∉ q')
    (hclosed : Closed q tail) (hclosed' : Closed q' tail) (front : List Char) :
    replaceUrl c (front ++ '?' :: (q ++ tail)) = replaceUrl c (front ++ '?' :: (q' ++ tail)) := by
  obtain ⟨tail', trailing, htail, heq⟩ := replaceUrl_closed c front hclosed
  rw [heq q hclosed, heq q' hclosed', sanitizeUrlField_same h hq hq' htail front]

/-- The scan of a run with a start before the query: the URL it finds begins at one place,
whatever the query. -/
theorem scanRun_query (c : Codecs) {front : List Char} (hstart : HasStart front) :
    ∃ shown front', ∀ rest, scanRun c (front ++ '?' :: rest) = shown ++ replaceUrl c (front' ++ '?' :: rest) := by
  induction front with
  | nil =>
    have := hstart.length
    simp at this
  | cons ch front ih =>
    by_cases hfirst : startsUrl (ch :: front ++ ['?']) = true
    · refine ⟨[], ch :: front, fun rest => ?_⟩
      have hsame := hstart.startsUrl_eq '?' rest
      rw [hfirst, List.cons_append] at hsame
      rw [List.cons_append, scanRun, if_pos hsame, List.nil_append]
    · -- The start the text has is further on.
      have hlater : HasStart front := by
        obtain ⟨m, hsuffix, hm⟩ := hstart
        obtain rfl | hsuffix := List.suffix_cons_iff.mp hsuffix
        · exact absurd (startsUrl_mono hm ['?']) hfirst
        · exact ⟨m, hsuffix, hm⟩
      obtain ⟨shown, front', hfront⟩ := ih hlater
      refine ⟨ch :: shown, front', fun rest => ?_⟩
      have hsame := hstart.startsUrl_eq '?' rest
      rw [List.cons_append] at hsame
      rw [List.cons_append, scanRun, hsame, if_neg hfirst, hfront rest, List.cons_append]

/-- **A run with a URL start before the query hides the values of the query.** -/
theorem scanRun_same {c : Codecs} {q q' tail : List Char} (h : SameQuery q q') (hq : '#' ∉ q) (hq' : '#' ∉ q')
    (hclosed : Closed q tail) (hclosed' : Closed q' tail) {front : List Char} (hstart : HasStart front) :
    scanRun c (front ++ '?' :: (q ++ tail)) = scanRun c (front ++ '?' :: (q' ++ tail)) := by
  obtain ⟨shown, front', hscan⟩ := scanRun_query c hstart
  rw [hscan, hscan, replaceUrl_same h hq hq' hclosed hclosed']

/-! ### URLs the fetcher accepts -/

/-- A URL with a query: what stands before the question mark, the query, and nothing or the
fragment. -/
structure Link where
  head : List Char
  query : List Char
  tail : List Char
  head_plain : '?' ∉ head ∧ '#' ∉ head
  query_plain : '#' ∉ query
  tail_fragment : EndsQuery tail

def Link.text (l : Link) : List Char := l.head ++ '?' :: (l.query ++ l.tail)

def Accepted (c : Codecs) (url : List Char) : Prop := (normalizeUrl c (String.ofList url)).isSome = true

/-- Two accepted URLs that differ only in query values that are not empty. -/
structure Varies (c : Codecs) (l l' : Link) : Prop where
  head : l.head = l'.head
  query : SameQuery l.query l'.query
  tail : l.tail = l'.tail
  accepted : Accepted c l.text
  accepted' : Accepted c l'.text

/-- Neither ended nor shortened by the scan before its values are over. -/
structure Sealed (l : Link) : Prop where
  solid : Solid (l.head ++ l.query)
  closed : Closed l.query l.tail

/-- What `normalize_url` accepts has the scheme and an authority. -/
theorem normalizeUrl_parts {c : Codecs} {target url : String} (h : normalizeUrl c target = some url) :
    ∃ parts, urlsplit c.toTables (strip target.toList) = some parts ∧
      (c.lower parts.scheme = "http".toList ∨ c.lower parts.scheme = "https".toList) ∧ parts.netloc ≠ [] := by
  obtain ⟨parts, _, hparts, hscheme, _⟩ := normalizeUrl_shape h
  refine ⟨parts, hparts, hscheme, fun hnetloc => ?_⟩
  simp only [normalizeUrl, Option.bind_eq_bind, Option.bind_eq_some_iff] at h
  obtain ⟨_, _, parts', hparts', _, _, _, _, _, hhost, _⟩ := h
  cases hparts.symm.trans hparts'
  have hempty : parts.hostname c.toTables = [] := by
    have hraw : parts.rawHost = [] := by
      unfold SplitResult.rawHost
      rw [hnetloc]
      rfl
    unfold SplitResult.hostname
    rw [hraw]
    exact c.lower_ascii [] rfl
  rw [hempty] at hhost
  cases hhost

theorem isSpace_of_isDelimiter {ch : Char} (h : isDelimiter ch = false) : isSpace ch = false := by
  unfold isDelimiter at h
  simp only [Bool.or_eq_false_iff] at h
  exact h.1.1.1.1

theorem strip_query {url : List Char} (hurl : Solid url) (rest : List Char) :
    ∃ rest', strip (url ++ '?' :: rest) = url ++ '?' :: rest' := by
  have hfront : (url ++ '?' :: rest).dropWhile isSpace = url ++ '?' :: rest := by
    cases url with
    | nil => rfl
    | cons ch url =>
      exact List.dropWhile_cons_of_neg (by simp [isSpace_of_isDelimiter (hurl ch (List.mem_cons_self ..))])
  have hback : ∀ l : List Char, ∃ l', (l ++ '?' :: url.reverse).dropWhile isSpace = l' ++ '?' :: url.reverse := by
    intro l
    induction l with
    | nil => exact ⟨[], rfl⟩
    | cons ch l ih =>
      by_cases hch : isSpace ch = true
      · obtain ⟨l', hl'⟩ := ih
        exact ⟨l', by simpa [hch] using hl'⟩
      · exact ⟨ch :: l, by simp [hch]⟩
  obtain ⟨l', hl'⟩ := hback rest.reverse
  refine ⟨l'.reverse, ?_⟩
  have hreverse : (url ++ '?' :: rest).reverse = rest.reverse ++ '?' :: url.reverse := by simp
  rw [strip, hfront, hreverse, hl']
  simp

theorem isKept_of_isDelimiter {ch : Char} (h : isDelimiter ch = false) : isKept ch = true := by
  have hne : ∀ d, isDelimiter d = true → ch ≠ d := by
    rintro d hd rfl
    rw [hd] at h
    cases h
  simp [isKept, hne '\t' (by decide), hne '\r' (by decide), hne '\n' (by decide)]

theorem clean_solid {url : List Char} (hurl : Solid url) : clean url <:+ url := by
  have hkept : (url.dropWhile fun ch => decide (ch.val ≤ 32)).filter isKept =
      url.dropWhile fun ch => decide (ch.val ≤ 32) := List.filter_eq_self.mpr fun ch hch =>
    isKept_of_isDelimiter (hurl ch ((List.dropWhile_sublist _).mem hch))
  rw [clean]
  change (url.dropWhile (fun ch => decide (ch.val ≤ 32))).filter isKept <:+ url
  rw [hkept]
  exact List.dropWhile_suffix _

/-- The letters of the pattern are matched in any case. -/
theorem opensWith_name {name letters : List Char} (h : asciiLower name = letters) (more rest : List Char) :
    opensWith (letters ++ more) (name ++ rest) = opensWith more rest := by
  subst h
  induction name with
  | nil => rfl
  | cons ch name ih =>
    simp only [asciiLower, List.map_cons, List.cons_append, opensWith] at ih ⊢
    rw [ih]
    simp [matchesLetter]

/-- The scheme found is a name before a colon, in lower case. -/
theorem splitScheme_eq {url : List Char} {c : Codecs}
    (h : c.lower (splitScheme [] url).1 = "http".toList ∨ c.lower (splitScheme [] url).1 = "https".toList) :
    ∃ name rest, url = name ++ ':' :: rest ∧ (splitScheme [] url).2 = rest ∧
      (asciiLower name = "http".toList ∨ asciiLower name = "https".toList) := by
  unfold splitScheme at h ⊢
  dsimp only at h ⊢
  split at h
  · rename_i hname
    rw [if_pos hname]
    simp only [Bool.and_eq_true] at hname
    obtain ⟨⟨hcolon, -⟩, hchars⟩ := hname
    have hascii := isAscii_asciiLower (isAscii_of_isSchemeChar hchars)
    rw [c.lower_ascii _ hascii, asciiLower_asciiLower] at h
    exact ⟨before ':' url, after ':' url, eq_before_after (by simpa using hcolon), rfl, h⟩
  · have hnil : c.lower [] = [] := c.lower_ascii [] rfl
    rw [hnil] at h
    obtain h | h := h <;> cases h

/-- An authority begins after two slashes. -/
theorem splitAuthority_eq {rest : List Char} (h : (splitAuthority rest).1 ≠ []) :
    ∃ ch more, rest = '/' :: '/' :: ch :: more := by
  unfold splitAuthority at h
  split at h
  · rename_i more
    cases more with
    | nil => exact absurd rfl h
    | cons ch more => exact ⟨ch, more, rfl⟩
  · exact absurd rfl h

/-- **A URL the fetcher accepts starts in its own text**, if nothing before its query ends
it. -/
theorem hasStart_of_accepted {c : Codecs} {url rest : List Char} (hurl : Solid url)
    (h : Accepted c (url ++ '?' :: rest)) : HasStart url := by
  obtain ⟨normalized, hnormalized⟩ := Option.isSome_iff_exists.mp h
  obtain ⟨parts, hparts, hscheme, hnetloc⟩ := normalizeUrl_parts hnormalized
  obtain ⟨rest', hstrip⟩ := strip_query hurl rest
  rw [String.toList_ofList, hstrip, urlsplit_query] at hparts
  simp only [Option.ite_none_right_eq_some, Option.some.injEq] at hparts
  obtain ⟨-, rfl⟩ := hparts
  simp only [splitRest] at hscheme hnetloc
  obtain ⟨name, more, hclean, hmore, hname⟩ := splitScheme_eq hscheme
  rw [hmore] at hnetloc
  obtain ⟨ch, more', rfl⟩ := splitAuthority_eq hnetloc
  have hsuffix := clean_solid hurl
  have hch : isDelimiter ch = false := by
    refine hurl ch (hsuffix.subset ?_)
    rw [hclean]
    simp
  have hslashes : opensWith "://".toList (':' :: '/' :: '/' :: ch :: more') = true := by
    simp [opensWith, matchesLetter, hch]
  refine ⟨clean url, hsuffix, ?_⟩
  rw [hclean, startsUrl, Bool.or_eq_true]
  obtain hname | hname := hname
  · exact .inl ((opensWith_name hname "://".toList _).trans hslashes)
  · exact .inr ((opensWith_name hname "://".toList _).trans hslashes)

/-! ### Documents that differ in values -/

/-- Texts that are the same but for the URLs in them, each of which is one of the kind `P`
and is followed by a blank or by the end. -/
inductive SameText (c : Codecs) (P : Link → Prop) : List Char → List Char → Prop
  | nil : SameText c P [] []
  | char (ch : Char) {text text' : List Char} (rest : SameText c P text text') : SameText c P (ch :: text) (ch :: text')
  | link {l l' : Link} {text text' : List Char} (varies : Varies c l l') (first : P l) (second : P l')
    (ends : ∀ ch ∈ text.head?, isSpace ch = true) (rest : SameText c P text text') :
    SameText c P (l.text ++ text) (l'.text ++ text')

mutual
/-- Documents that are the same but for the URLs that are values of URL fields and for those
of the kind `P` in texts, under the given key. -/
inductive SameDocument (c : Codecs) (P : Link → Prop) : String → Document → Document → Prop
  | same (key : String) (d : Document) : SameDocument c P key d d
  | field {key : String} {l l' : Link} (hkey : isOutputUrl c key = true) (varies : Varies c l l') :
    SameDocument c P key (.text (String.ofList l.text)) (.text (String.ofList l'.text))
  | text {key : String} {text text' : List Char} (hkey : isOutputUrl c key = false) (h : SameText c P text text') :
    SameDocument c P key (.text (String.ofList text)) (.text (String.ofList text'))
  | list {key : String} {items items' : List Document} (h : SameItems c P key items items') :
    SameDocument c P key (.list items) (.list items')
  | mapping {key : String} {fields fields' : List (String × Document)} (h : SameFields c P fields fields') :
    SameDocument c P key (.mapping fields) (.mapping fields')

inductive SameItems (c : Codecs) (P : Link → Prop) : String → List Document → List Document → Prop
  | nil (key : String) : SameItems c P key [] []
  | cons {key : String} {d d' : Document} {items items' : List Document} (head : SameDocument c P key d d')
    (tail : SameItems c P key items items') : SameItems c P key (d :: items) (d' :: items')

inductive SameFields (c : Codecs) (P : Link → Prop) : List (String × Document) → List (String × Document) → Prop
  | nil : SameFields c P [] []
  | cons {key : String} {d d' : Document} {fields fields' : List (String × Document)} (head : SameDocument c P key d d')
    (tail : SameFields c P fields fields') : SameFields c P ((key, d) :: fields) ((key, d') :: fields')
end

variable {c : Codecs}

/-- The whole value of a URL field hides the values of its query. -/
theorem Varies.field {l l' : Link} (h : Varies c l l') :
    sanitizeUrlField c true (String.ofList l.text) = sanitizeUrlField c true (String.ofList l'.text) := by
  have hsame := sanitizeUrlField_same (c := c) h.query l.query_plain l'.query_plain l.tail_fragment l.head
  rw [Link.text, Link.text, hsame, h.head, h.tail]

/-- What a run reads the same, the scan reads the same: where the run ends, or after a
fragment that follows. -/
theorem scanRuns_ends {run run' rest : List Char} (h : scanRun c run.reverse = scanRun c run'.reverse)
    (hrest : EndsRun rest) : scanRuns c run rest = scanRuns c run' rest := by
  cases rest with
  | nil => exact h
  | cons ch rest =>
    have hch := hrest ch rfl
    rw [scanRuns, scanRuns, if_pos hch, if_pos hch, h]

theorem scanRuns_append (run s rest : List Char) (hs : Solid s) :
    scanRuns c run (s ++ rest) = scanRuns c (s.reverse ++ run) rest := by
  induction s generalizing run with
  | nil => rfl
  | cons ch s ih =>
    have hch := hs ch (List.mem_cons_self ..)
    rw [List.cons_append, scanRuns, if_neg (by simp [hch]), ih _ fun x hx => hs x (List.mem_cons_of_mem ch hx)]
    simp

/-- A text splits where its first run ends. -/
theorem solid_split (s : List Char) : ∃ run rest, s = run ++ rest ∧ Solid run ∧ EndsRun rest := by
  induction s with
  | nil => exact ⟨[], [], rfl, by simp [Solid], by simp [EndsRun]⟩
  | cons ch s ih =>
    by_cases hch : isDelimiter ch = true
    · exact ⟨[], ch :: s, rfl, by simp [Solid], by simpa [EndsRun] using hch⟩
    · obtain ⟨run, rest, rfl, hrun, hrest⟩ := ih
      exact ⟨ch :: run, rest, rfl, by simpa [Solid, hch] using hrun, hrest⟩

/-- **A sealed URL hides its values wherever it stands**: `run` is what the run it stands in
holds before it, `rest` what follows. -/
theorem Varies.sealed {l l' : Link} (h : Varies c l l') (hl : Sealed l) (hl' : Sealed l') {rest : List Char}
    (hrest : EndsRun rest) (run : List Char) :
    scanRuns c run (l.text ++ rest) = scanRuns c run (l'.text ++ rest) := by
  obtain ⟨head, query, tail, hplain, hquery, htail⟩ := l
  obtain ⟨head', query', tail', hplain', hquery', htail'⟩ := l'
  obtain rfl : head = head' := h.head
  obtain rfl : tail = tail' := h.tail
  have hsolid : ∀ q, Solid (head ++ q) → Solid (head ++ '?' :: q) := by
    intro q hq ch hch
    simp only [List.mem_append, List.mem_cons] at hch
    obtain hch | rfl | hch := hch
    · exact hq ch (List.mem_append_left _ hch)
    · decide
    · exact hq ch (List.mem_append_right _ hch)
  have hstart : HasStart (run.reverse ++ head) := by
    have hhead : Solid head := fun ch hch => hl.solid ch (List.mem_append_left _ hch)
    obtain ⟨m, hsuffix, hm⟩ := hasStart_of_accepted hhead h.accepted
    exact ⟨m, hsuffix.trans (List.suffix_append _ _), hm⟩
  -- A fragment goes on to the end of the run, and what follows does not see the query.
  obtain ⟨first, more, hfirst, hrun, hmore⟩ := solid_split (tail ++ rest)
  have hshape : ∀ q, Solid (head ++ q) → scanRuns c run ((head ++ '?' :: (q ++ tail)) ++ rest) =
      scanRuns c (first.reverse ++ ((head ++ '?' :: q).reverse ++ run)) more := by
    intro q hq
    have hassoc : (head ++ '?' :: (q ++ tail)) ++ rest = (head ++ '?' :: q) ++ (first ++ more) := by
      rw [← hfirst]
      simp
    rw [hassoc, scanRuns_append run _ _ (hsolid q hq), scanRuns_append _ first more hrun]
  have hclosed : ∀ q, Closed q tail → Closed q first := by
    rintro q (hhash | ⟨rfl, hlast⟩)
    · left
      cases first with
      | nil =>
        rw [List.nil_append] at hfirst
        have hdelimiter := hmore '#' (by
          rw [← hfirst]
          cases tail with
          | nil => cases hhash
          | cons ch tail => exact hhash)
        exact absurd hdelimiter (by decide)
      | cons ch first =>
        cases tail with
        | nil => cases hhash
        | cons d tail =>
          cases hhash
          exact congrArg some (List.cons.inj hfirst).1.symm
    · right
      refine ⟨?_, hlast⟩
      cases first with
      | nil => rfl
      | cons ch first =>
        rw [List.nil_append] at hfirst
        have hdelimiter := hrest ch (by rw [hfirst]; rfl)
        rw [hrun ch (List.mem_cons_self ..)] at hdelimiter
        cases hdelimiter
  rw [Link.text, Link.text]
  dsimp only
  rw [hshape query hl.solid, hshape query' hl'.solid]
  refine scanRuns_ends ?_ hmore
  have hrunSame := scanRun_same (c := c) h.query hquery hquery' (hclosed query hl.closed) (hclosed query' hl'.closed) hstart
  simpa using hrunSame

theorem scanRuns_congr {text text' : List Char} (h : ∀ run, scanRuns c run text = scanRuns c run text')
    (s run : List Char) : scanRuns c run (s ++ text) = scanRuns c run (s ++ text') := by
  induction s generalizing run with
  | nil => exact h run
  | cons ch s ih => simp only [List.cons_append, scanRuns, ih]

theorem SameText.scan {text text' : List Char} (h : SameText c Sealed text text') (run : List Char) :
    scanRuns c run text = scanRuns c run text' := by
  induction h generalizing run with
  | nil => rfl
  | char ch _ ih => simp only [scanRuns, ih]
  | @link l l' text text' hvaries hfirst hsecond hends _ ih =>
    have hrest : EndsRun text := fun ch hch => by simp [isDelimiter, hends ch hch]
    rw [hvaries.sealed hfirst hsecond hrest run]
    exact scanRuns_congr ih l'.text run

theorem SameText.sanitized {text text' : List Char} (h : SameText c Sealed text text') :
    sanitizeAuthenticatedText c (String.ofList text) = sanitizeAuthenticatedText c (String.ofList text') := by
  have hscan := h.scan []
  rw [← scanText_eq_scanRuns c text [] (by simp [Solid]), ← scanText_eq_scanRuns c text' [] (by simp [Solid])] at hscan
  unfold sanitizeAuthenticatedText
  rw [String.toList_ofList, String.toList_ofList]
  exact congrArg String.ofList hscan

mutual
/-- **Documents that differ only in the values of sealed URLs look the same**, form by form. -/
theorem SameDocument.sanitized {key : String} {d d' : Document} (h : SameDocument c Sealed key d d') :
    sanitizeOutputForRequest c true key d = sanitizeOutputForRequest c true key d' := by
  match h with
  | .same _ _ => rfl
  | .field hkey hvaries => simp only [sanitizeOutputForRequest, outputText, hkey, if_true, hvaries.field]
  | .text hkey htext =>
    simp only [sanitizeOutputForRequest, outputText, hkey, Bool.false_eq_true, if_false, if_true, htext.sanitized]
  | .list hitems => simp only [sanitizeOutputForRequest, SameItems.sanitized hitems]
  | .mapping hfields => simp only [sanitizeOutputForRequest, SameFields.sanitized hfields]

theorem SameItems.sanitized {key : String} {items items' : List Document} (h : SameItems c Sealed key items items') :
    outputItems c true key items = outputItems c true key items' := by
  match h with
  | .nil _ => rfl
  | .cons head tail => simp only [outputItems, SameDocument.sanitized head, SameItems.sanitized tail]

theorem SameFields.sanitized {fields fields' : List (String × Document)} (h : SameFields c Sealed fields fields') :
    outputFields c true fields = outputFields c true fields' := by
  match h with
  | .nil => rfl
  | .cons head tail => simp only [outputFields, SameDocument.sanitized head, SameFields.sanitized tail]
end

end Fetech.Documents
