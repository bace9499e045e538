import Fetech.Documents.Hiding

/-! Which URLs in text give their values away (`fetech/security.py`).

What ends a URL in text comes through the scan as it is, so a value that holds such a
character shows it; and punctuation that ends a URL is given back, so a value that ends with
it shows that. Against any sealed URL of the same names the difference is seen: `Sealed` is
the exact condition. -/
namespace Fetech.Documents
open Lib.Url

/-! ### What ends a URL is never made -/

/-- Lower case makes no blank, bracket or quote of other characters. -/
def KeepsSolid (c : Codecs) : Prop := ∀ s, Solid s → Solid (c.lower s)

theorem Solid.mono {s s' : List Char} (h : Solid s') (hsub : s ⊆ s') : Solid s := fun ch hch => h ch (hsub hch)

theorem Solid.append {s s' : List Char} (h : Solid s) (h' : Solid s') : Solid (s ++ s') := fun ch hch =>
  (List.mem_append.mp hch).elim (h ch) (h' ch)

theorem Solid.cons {ch : Char} {s : List Char} (hch : isDelimiter ch = false) (h : Solid s) : Solid (ch :: s) := by
  intro d hd
  obtain rfl | hd := List.mem_cons.mp hd
  · exact hch
  · exact h d hd

theorem solid_nil : Solid [] := fun _ hch => by cases hch

/-- Plain characters end no URL. -/
theorem isDelimiter_of_ascii {ch : Char} (h : (48 ≤ ch.toNat ∧ ch.toNat ≤ 59) ∨ (63 ≤ ch.toNat ∧ ch.toNat ≤ 126) ∨
    (42 ≤ ch.toNat ∧ ch.toNat ≤ 47)) : isDelimiter ch = false := by
  by_contra hd
  simp only [Bool.not_eq_false, isDelimiter, isSpace, Bool.or_eq_true, Bool.and_eq_true, decide_eq_true_eq, beq_iff_eq,
    UInt32.le_iff_toNat_le, ← UInt32.toNat_inj, Char.ext_iff] at hd
  simp at hd
  omega

theorem isDelimiter_of_isSafe {ch : Char} (h : isSafe ch = true) : isDelimiter ch = false := by
  apply isDelimiter_of_ascii
  simp only [isSafe, isAlpha, isDigit, Bool.or_eq_true, Bool.and_eq_true, decide_eq_true_eq, beq_iff_eq, Char.le_def,
    UInt32.le_iff_toNat_le, ← UInt32.toNat_inj, Char.ext_iff] at h
  simp at h
  omega

theorem solid_toLower {ch : Char} (h : isDelimiter ch = false) : isDelimiter ch.toLower = false := by
  unfold Char.toLower
  split
  · rename_i hupper
    have h1 : (65 : Nat) ≤ ch.val.toNat := hupper.1
    have h2 : ch.val.toNat ≤ 90 := hupper.2
    apply isDelimiter_of_ascii
    have h3 : (ch.val + 32).toNat = ch.val.toNat + 32 := by
      rw [UInt32.toNat_add]
      have h4 : (32 : UInt32).toNat = 32 := rfl
      omega
    show (48 ≤ (ch.val + 32).toNat ∧ (ch.val + 32).toNat ≤ 59) ∨ (63 ≤ (ch.val + 32).toNat ∧ (ch.val + 32).toNat ≤ 126) ∨
      (42 ≤ (ch.val + 32).toNat ∧ (ch.val + 32).toNat ≤ 47)
    omega
  · exact h

theorem solid_quotePlus (s : List Char) : Solid (quotePlus s) := by
  intro d hd
  obtain ⟨ch, -, hch⟩ := List.mem_flatMap.mp hd
  have hhex : ∀ n < 16, isDelimiter (hexDigit n) = false := by decide
  unfold quoteChar at hch
  split at hch
  · rw [List.mem_singleton.mp hch]
    decide
  · split at hch
    · rename_i hsafe
      rw [List.mem_singleton.mp hch]
      exact isDelimiter_of_isSafe hsafe
    · obtain ⟨b, -, hb⟩ := List.mem_flatMap.mp hch
      have hlt := b.toNat_lt
      simp only [quoteByte, List.mem_cons, List.not_mem_nil, or_false] at hb
      obtain rfl | rfl | rfl := hb
      · decide
      · exact hhex _ (by omega)
      · exact hhex _ (by omega)

theorem solid_urlencode (pairs : List (List Char × List Char)) : Solid (urlencode pairs) := by
  have hpair : ∀ pair, Solid (writePair pair) := fun pair =>
    (solid_quotePlus pair.1).append (.cons (by decide) (solid_quotePlus pair.2))
  induction pairs with
  | nil => exact solid_nil
  | cons pair rest ih =>
    cases rest with
    | nil =>
      rw [urlencode_singleton]
      exact hpair pair
    | cons next rest =>
      rw [urlencode_cons]
      exact (hpair pair).append (.cons (by decide) ih)

theorem solid_nat (n : Nat) : Solid (toString n).toList := by
  intro ch hch
  have hdigit : ch.isDigit = true := by
    refine Nat.isDigit_of_mem_toDigits (b := 10) (n := n) (by decide) (by decide) ?_
    rwa [Nat.toString_eq_ofList_toDigits, String.toList_ofList] at hch
  apply isDelimiter_of_ascii
  simp only [Char.isDigit, Bool.and_eq_true, decide_eq_true_eq, UInt32.le_iff_toNat_le, ge_iff_le] at hdigit
  have h1 : 48 ≤ ch.toNat := hdigit.1
  have h2 : ch.toNat ≤ 57 := hdigit.2
  omega

theorem solid_urlunsplit {p : SplitResult} (hscheme : Solid p.scheme) (hnetloc : Solid p.netloc) (hpath : Solid p.path)
    (hquery : Solid p.query) (hfragment : Solid p.fragment) : Solid (urlunsplit p) := by
  have hslashes : ∀ s, Solid s → Solid ('/' :: '/' :: s) := fun s hs => .cons (by decide) (.cons (by decide) hs)
  have hjoined : Solid (joinAuthority p) := by
    unfold joinAuthority
    split
    · refine hslashes _ (hnetloc.append ?_)
      split
      · exact .cons (by decide) hpath
      · exact hpath
    · split
      · exact hslashes _ hpath
      · split
        · exact hslashes _ hpath
        · exact hpath
  unfold urlunsplit
  dsimp only
  have hshown : ∀ s, Solid s → Solid (if p.scheme.isEmpty then s else p.scheme ++ ':' :: s) := by
    intro s hs
    split
    · exact hs
    · exact hscheme.append (.cons (by decide) hs)
  have hasked : ∀ s, Solid s → Solid (if p.query.isEmpty then s else s ++ '?' :: p.query) := by
    intro s hs
    split
    · exact hs
    · exact hs.append (.cons (by decide) hquery)
  have hended : ∀ s, Solid s → Solid (if p.fragment.isEmpty then s else s ++ '#' :: p.fragment) := by
    intro s hs
    split
    · exact hs
    · exact hs.append (.cons (by decide) hfragment)
  exact hended _ (hasked _ (hshown _ hjoined))

/-- A URL that is sanitised holds nothing that ends a URL, unless it did. -/
theorem solid_sanitizeUrlField {c : Codecs} (hc : KeepsSolid c) {redactQuery : Bool} {url : List Char} (h : Solid url) :
    Solid (sanitizeUrlField c redactQuery (String.ofList url)).toList := by
  have hmark : Solid redactedInvalidUrl.toList := solid_of_all (by decide)
  unfold sanitizeUrlField sanitizeUrl
  rw [String.toList_ofList]
  cases hp : urlsplit c.toTables url with
  | none => exact hmark
  | some p =>
    obtain ⟨hscheme, hnetloc, hpath⟩ := urlsplit_subset c.toTables hp
    cases hport : p.port with
    | none => simpa [hport] using hmark
    | some port =>
      have hraw : Solid p.rawHost := h.mono (List.Subset.trans p.rawHost_subset hnetloc)
      have hhost : Solid (p.hostname c.toTables) := by
        unfold SplitResult.hostname
        dsimp only
        split
        · exact (hc _ (hraw.mono (before_subset _ _))).append (.cons (by decide) (hraw.mono (after_subset _ _)))
        · exact hc _ hraw
      have hshown : Solid (if (p.hostname c.toTables).contains ':' then '[' :: p.hostname c.toTables ++ [']']
          else p.hostname c.toTables) := by
        split
        · exact Solid.append (.cons (by decide) hhost) (.cons (by decide) solid_nil)
        · exact hhost
      simp only [Option.bind_eq_bind, Option.bind_some, hport, Option.getD_some, pure, String.toList_ofList]
      refine @solid_urlunsplit ⟨_, _, _, _, _⟩ ?_ ?_ (h.mono hpath) (solid_urlencode _) solid_nil
      · intro ch hch
        obtain ⟨d, hd, rfl⟩ := hscheme ch hch
        exact solid_toLower (h d hd)
      · dsimp only
        split
        · exact hshown.append (.cons (by decide) (solid_nat _))
        · exact hshown

theorem solid_scanRun {c : Codecs} (hc : KeepsSolid c) {s : List Char} (h : Solid s) : Solid (scanRun c s) := by
  induction s with
  | nil => exact h
  | cons ch s ih =>
    rw [scanRun]
    split
    · refine Solid.append (solid_sanitizeUrlField hc (h.mono ?_)) (h.mono ?_)
      · exact fun x hx => List.mem_reverse.mp ((List.dropWhile_sublist _).subset (List.mem_reverse.mp hx))
      · exact fun x hx => List.mem_reverse.mp ((List.takeWhile_sublist _).subset (List.mem_reverse.mp hx))
    · exact .cons (h ch (List.mem_cons_self ..)) (ih (h.mono (List.subset_cons_self _ _)))

/-- **The scan keeps whatever ends a URL**, every single character of it. -/
theorem countP_scanRuns {c : Codecs} (hc : KeepsSolid c) (text run : List Char) (hrun : Solid run) :
    (scanRuns c run text).countP isDelimiter = text.countP isDelimiter := by
  have hnone : ∀ s, Solid s → s.countP isDelimiter = 0 := fun s hs =>
    List.countP_eq_zero.mpr fun ch hch => by simp [hs ch hch]
  have hreverse : ∀ run, Solid run → Solid (scanRun c run.reverse) := fun run hrun =>
    solid_scanRun hc (hrun.mono fun _ hx => List.mem_reverse.mp hx)
  induction text generalizing run with
  | nil => exact hnone _ (hreverse run hrun)
  | cons ch text ih =>
    rw [scanRuns]
    split
    · rename_i hch
      rw [List.countP_append, hnone _ (hreverse run hrun), Nat.zero_add, List.countP_cons, List.countP_cons,
        ih [] solid_nil]
    · rename_i hch
      rw [ih (ch :: run) (.cons (by simpa using hch) hrun), List.countP_cons, if_neg hch, Nat.add_zero]

/-! ### What stands around a URL -/

variable {c : Codecs}

/-- What is read before a text is shown before it, but for the run that it goes on with. -/
theorem scanRuns_front (left run : List Char) (hrun : Solid run) :
    ∃ shown run', Solid run' ∧ ∀ text, scanRuns c run (left ++ text) = shown ++ scanRuns c run' text := by
  induction left generalizing run with
  | nil => exact ⟨[], run, hrun, fun _ => rfl⟩
  | cons ch left ih =>
    by_cases hch : isDelimiter ch = true
    · obtain ⟨shown, run', hrun', hleft⟩ := ih [] solid_nil
      refine ⟨scanRun c run.reverse ++ ch :: shown, run', hrun', fun text => ?_⟩
      rw [List.cons_append, scanRuns, if_pos hch, hleft text, List.append_assoc, List.cons_append]
    · obtain ⟨shown, run', hrun', hleft⟩ := ih (ch :: run) (.cons (by simpa using hch) hrun)
      refine ⟨shown, run', hrun', fun text => ?_⟩
      rw [List.cons_append, scanRuns, if_neg hch, hleft text]

/-- Where the run ends, its scan is a first part of what is shown. -/
theorem scanRuns_of_endsRun {rest : List Char} (hrest : EndsRun rest) :
    ∃ shown, ∀ run, scanRuns c run rest = scanRun c run.reverse ++ shown := by
  cases rest with
  | nil => exact ⟨[], fun run => (List.append_nil _).symm⟩
  | cons ch rest =>
    have hch := hrest ch rfl
    exact ⟨ch :: scanRuns c [] rest, fun run => by rw [scanRuns, if_pos hch]⟩

/-! ### The last value of a query -/

/-- A query ends with its last piece, which stands at the start or after an ampersand. -/
theorem splitOn_last (q : List Char) : ∃ init p before', q.splitOn '&' = init ++ [p] ∧ q = before' ++ p ∧
    ((init = [] ∧ before' = []) ∨ (init ≠ [] ∧ before'.getLast? = some '&')) := by
  induction q with
  | nil => exact ⟨[], [], [], rfl, rfl, .inl ⟨rfl, rfl⟩⟩
  | cons ch q ih =>
    obtain ⟨init, p, front, hsplit, rfl, hfront⟩ := ih
    rw [splitOn_cons, hsplit]
    by_cases hch : ch = '&'
    · rw [if_pos hch]
      refine ⟨[] :: init, p, ch :: front, rfl, rfl, .inr ⟨List.cons_ne_nil _ _, ?_⟩⟩
      obtain ⟨-, rfl⟩ | ⟨-, hlast⟩ := hfront
      · rw [hch]
        rfl
      · rw [List.getLast?_cons, hlast]
        rfl
    · rw [if_neg hch]
      obtain ⟨rfl, rfl⟩ | ⟨hne, hlast⟩ := hfront
      · exact ⟨[], ch :: p, [], rfl, rfl, .inl ⟨rfl, rfl⟩⟩
      · cases init with
        | nil => exact absurd rfl hne
        | cons first init =>
          refine ⟨(ch :: first) :: init, p, ch :: front, rfl, rfl, .inr ⟨List.cons_ne_nil _ _, ?_⟩⟩
          rw [List.getLast?_cons, hlast]
          rfl

/-- The last character of a query, if it is no ampersand, ends its last piece. -/
theorem getLast?_of_piece {p front : List Char} {ch : Char}
    (hfront : front = [] ∨ front.getLast? = some '&') (hlast : (front ++ p).getLast? = some ch) (hch : ch ≠ '&') :
    p.getLast? = some ch := by
  cases hp : p.getLast? with
  | some d =>
    rw [List.getLast?_append, hp] at hlast
    exact hlast
  | none =>
    rw [List.getLast?_append, hp, Option.none_or] at hlast
    obtain rfl | hfront := hfront
    · cases hlast
    · rw [hfront] at hlast
      exact absurd (Option.some.inj hlast).symm hch

/-- Where one of two queries is cut short at its end and the other is not, the last piece of
the other has a value. -/
theorem SameQuery.last_isValue {q q' : List Char} (h : SameQuery q q') {ch : Char} (hch : q.getLast? = some ch)
    (htrailing : isTrailing ch = true) (hq' : ∀ d ∈ q'.getLast?, isTrailing d = false) :
    ∃ init p', q'.splitOn '&' = init ++ [p'] ∧ IsValue (after '=' p') := by
  obtain ⟨init, p, front, hsplit, rfl, hfront⟩ := splitOn_last q
  obtain ⟨init', p', front', hsplit', rfl, hfront'⟩ := splitOn_last q'
  refine ⟨init', p', hsplit', ?_⟩
  rw [SameQuery, hsplit, hsplit'] at h
  have hlen := h.length_eq
  have hlast : SamePiece p p' := by
    rw [List.length_append, List.length_append, List.length_singleton, List.length_singleton] at hlen
    have hdrop := List.forall₂_drop init.length h
    rw [List.drop_left, show init.length = init'.length by omega, List.drop_left] at hdrop
    cases hdrop with
    | cons hpiece _ => exact hpiece
  have hne : ch ≠ '&' := by
    rintro rfl
    cases htrailing
  have hp : p.getLast? = some ch := getLast?_of_piece (hfront.imp And.right And.right) hch hne
  obtain rfl | ⟨-, -, hvalue⟩ := hlast
  · have hlast' : (front' ++ p).getLast? = some ch := by
      rw [List.getLast?_append, hp]
      rfl
    rw [hq' ch hlast'] at htrailing
    cases htrailing
  · exact hvalue

theorem urlencode_concat (pairs : List (List Char × List Char)) (pair : List Char × List Char) :
    ∃ front, urlencode (pairs ++ [pair]) = front ++ writePair pair := by
  induction pairs with
  | nil => exact ⟨[], urlencode_singleton pair⟩
  | cons first rest ih =>
    obtain ⟨front, hfront⟩ := ih
    cases rest with
    | nil => exact ⟨writePair first ++ ['&'], by
        rw [List.cons_append, List.nil_append, urlencode_cons, urlencode_singleton, List.append_assoc]
        rfl⟩
    | cons next rest => exact ⟨writePair first ++ '&' :: front, by
        rw [List.cons_append, List.cons_append, urlencode_cons, ← List.cons_append, hfront, List.append_assoc,
          List.cons_append]⟩

/-- A query whose last piece has a value is shown with a mark at its end. -/
theorem sanitizeQuery_last {q p' : List Char} {init : List (List Char)} (hsplit : q.splitOn '&' = init ++ [p'])
    (hvalue : IsValue (after '=' p')) : ∃ front, sanitizeQuery c true q = front ++ "%5BREDACTED%5D".toList := by
  obtain ⟨ch, hch, -⟩ := hvalue
  have hsome : parsePair p' = some (unquotePlus (before '=' p'), unquotePlus (after '=' p')) := by
    have hne : (after '=' p').isEmpty = false := by simpa using List.ne_nil_of_mem hch
    simp only [parsePair, hne, Bool.false_eq_true, if_false]
  obtain ⟨front, hfront⟩ := urlencode_concat ((init.filterMap parsePair).map fun pair => (pair.1, redacted.toList))
    (unquotePlus (before '=' p'), redacted.toList)
  have hmark : writePair (unquotePlus (before '=' p'), redacted.toList) =
      quotePlus (unquotePlus (before '=' p')) ++ '=' :: "%5BREDACTED%5D".toList := rfl
  refine ⟨front ++ (quotePlus (unquotePlus (before '=' p')) ++ ['=']), ?_⟩
  have hquery : sanitizeQuery c true q = urlencode ((init.filterMap parsePair).map (fun pair => (pair.1, redacted.toList)) ++
      [(unquotePlus (before '=' p'), redacted.toList)]) := by
    unfold sanitizeQuery parseQsl
    rw [hsplit, List.filterMap_append, List.map_append]
    simp [hsome]
  rw [hquery, hfront, hmark]
  simp

/-- **Punctuation at the end of a value is seen**: beside a query that ends in none. -/
theorem replaceUrl_trailing {q q' : List Char} (h : SameQuery q q') (hq : '#' ∉ q) (hq' : '#' ∉ q')
    (hsolid : Solid q') {ch : Char} (hch : q.getLast? = some ch) (htrailing : isTrailing ch = true)
    (hclosed : ∀ d ∈ q'.getLast?, isTrailing d = false) (front : List Char) :
    replaceUrl c (front ++ '?' :: q) ≠ replaceUrl c (front ++ '?' :: q') := by
  -- The first is cut before its last characters, of which `ch` is one; the second is not cut.
  obtain ⟨most, rfl⟩ : ∃ most, q = most ++ [ch] := by
    obtain rfl | ⟨most, d, rfl⟩ := q.eq_nil_or_concat
    · cases hch
    · exact ⟨most, by simpa using hch⟩
  have hmark : isTrailing '?' = false := by decide
  have hcut := replaceUrl_append c front (most ++ [ch]) hmark
  have hwhole := replaceUrl_append c front q' hmark
  have hnone : q'.reverse.takeWhile isTrailing = [] ∧ q'.reverse.dropWhile isTrailing = q'.reverse := by
    obtain rfl | ⟨q'', d, rfl⟩ := q'.eq_nil_or_concat
    · exact ⟨rfl, rfl⟩
    · have hd := hclosed d (by simp)
      simp [hd]
  rw [hnone.1, hnone.2, List.reverse_nil, List.reverse_reverse, List.append_nil] at hwhole
  simp only [List.reverse_append, List.reverse_cons, List.reverse_nil, List.nil_append, List.cons_append,
    List.takeWhile_cons, List.dropWhile_cons, htrailing, if_true] at hcut
  rw [hcut, hwhole]
  have hkept : '#' ∉ (most.reverse.dropWhile isTrailing).reverse := fun hmem =>
    hq (List.mem_append_left _ (List.mem_reverse.mp ((List.dropWhile_sublist _).subset (List.mem_reverse.mp hmem))))
  have hquery := @sanitizeUrlField_query c true front [] (.inl rfl)
  simp only [List.append_nil] at hquery
  obtain hfixed | ⟨shown, asked, hshown⟩ := hquery
  · intro heq
    rw [hfixed _ q' hkept hq'] at heq
    have hlen := congrArg List.length heq
    simp at hlen
  · obtain ⟨init, p', hsplit, hvalue⟩ := h.last_isValue hch htrailing hclosed
    have hne : q' ≠ [] := by
      rintro rfl
      obtain ⟨d, hd, -⟩ := hvalue
      have hp' : [[]] = init ++ [p'] := hsplit
      cases init with
      | nil =>
        cases hp'
        cases hd
      | cons first init => simp at hp'
    have hfilter : q'.filter isKept = q' := List.filter_eq_self.mpr fun d hd => isKept_of_isDelimiter (hsolid d hd)
    have hlast : ∀ d ∈ (asked ++ q').getLast?, isTrailing d = false := by
      rw [List.getLast?_append_of_ne_nil _ hne]
      exact hclosed
    obtain ⟨init', p'', hsplit', hvalue'⟩ := (h.append asked).last_isValue (by simp) htrailing hlast
    obtain ⟨before', hmark⟩ := sanitizeQuery_last (c := c) hsplit' hvalue'
    intro heq
    have hmarked : shown ++ withQuery (before' ++ "%5BREDACTED%5D".toList) =
        (shown ++ '?' :: (before' ++ "%5BREDACTED%5".toList)) ++ ['D'] := by simp [withQuery]
    rw [hshown q' hq', hfilter, hmark, hmarked, ← List.append_assoc] at heq
    have hends := List.getLast?_concat.symm.trans ((congrArg List.getLast? heq).trans List.getLast?_concat)
    rw [Option.some.inj hends] at htrailing
    exact absurd htrailing (by decide)

/-- **Beside a sealed URL of the same names, a URL in text is hidden exactly if it is sealed.** -/
theorem Varies.hidden_iff {l l' : Link} (hc : KeepsSolid c) (h : Varies c l l') (hl' : Sealed l') (left : List Char)
    {rest : List Char} (hrest : EndsRun rest) :
    scanRuns c [] (left ++ (l.text ++ rest)) = scanRuns c [] (left ++ (l'.text ++ rest)) ↔ Sealed l := by
  constructor
  · intro heq
    have hcount : l.query.countP isDelimiter = l'.query.countP isDelimiter := by
      have hsame := congrArg (List.countP isDelimiter) heq
      rw [countP_scanRuns hc _ _ solid_nil, countP_scanRuns hc _ _ solid_nil] at hsame
      simp only [Link.text, h.head, h.tail, List.countP_append, List.countP_cons] at hsame
      omega
    have hquery' : Solid l'.query := fun ch hch => hl'.solid ch (List.mem_append_right _ hch)
    have hhead : Solid l.head := fun ch hch => hl'.solid ch (List.mem_append_left _ (h.head ▸ hch))
    have hquery : Solid l.query := by
      have hzero : l'.query.countP isDelimiter = 0 := List.countP_eq_zero.mpr fun ch hch => by simp [hquery' ch hch]
      rw [hzero] at hcount
      intro ch hch
      simpa using List.countP_eq_zero.mp hcount ch hch
    refine ⟨hhead.append hquery, ?_⟩
    obtain htail | htail := l.tail_fragment
    · refine .inr ⟨htail, fun ch hch => ?_⟩
      by_contra htrailing
      have htail' : l'.tail = [] := h.tail ▸ htail
      have hclosed' : ∀ d ∈ l'.query.getLast?, isTrailing d = false := by
        obtain hhash | ⟨-, hlast⟩ := hl'.closed
        · rw [htail'] at hhash
          cases hhash
        · exact hlast
      -- What stands before and behind the two URLs is shown alike.
      obtain ⟨shown, run, hrun, hleft⟩ := scanRuns_front (c := c) left [] solid_nil
      obtain ⟨shown', hright⟩ := scanRuns_of_endsRun (c := c) hrest
      have hstart : HasStart (run.reverse ++ l.head) := by
        obtain ⟨m, hsuffix, hm⟩ := hasStart_of_accepted hhead h.accepted
        exact ⟨m, hsuffix.trans (List.suffix_append _ _), hm⟩
      obtain ⟨shown'', front, hscan⟩ := scanRun_query c hstart
      have hshape : ∀ q, Solid q → scanRuns c [] (left ++ ((l.head ++ '?' :: (q ++ [])) ++ rest)) =
          shown ++ ((shown'' ++ replaceUrl c (front ++ '?' :: q)) ++ shown') := by
        intro q hq
        rw [hleft, List.append_nil, scanRuns_append _ _ _ (hhead.append (.cons (by decide) hq)), hright, ← hscan]
        simp
      rw [Link.text, Link.text, htail, htail', ← h.head, hshape _ hquery, hshape _ hquery'] at heq
      have hreplaced := List.append_cancel_left (List.append_cancel_right (List.append_cancel_left heq))
      exact replaceUrl_trailing h.query l.query_plain l'.query_plain hquery' hch (by simpa using htrailing) hclosed' front
        hreplaced
    · exact .inl htail
  · intro hl
    exact scanRuns_congr (fun run => h.sealed hl hl' hrest run) left []

theorem sanitizeAuthenticatedText_eq_iff (text text' : List Char) :
    sanitizeAuthenticatedText c (String.ofList text) = sanitizeAuthenticatedText c (String.ofList text') ↔
      scanRuns c [] text = scanRuns c [] text' := by
  have hscan : ∀ text, scanText c 0 text = scanRuns c [] text := fun text =>
    scanText_eq_scanRuns c text [] solid_nil
  unfold sanitizeAuthenticatedText
  rw [String.toList_ofList, String.toList_ofList, hscan, hscan]
  exact ⟨fun h => by simpa using congrArg String.toList h, congrArg String.ofList⟩

/-- **Query values do not survive in sealed URLs, and in those only.** Documents of an
authenticated request that differ only in the values of URL fields and of sealed URLs in
texts look the same; and of two URLs of the same names in a text, one of them sealed, the
other is told apart from it unless it is sealed too. -/
theorem query_values_hidden (c : Codecs) :
    (∀ key d d', SameDocument c Sealed key d d' →
      sanitizeOutputForRequest c true key d = sanitizeOutputForRequest c true key d') ∧
    (KeepsSolid c → ∀ l l', Varies c l l' → Sealed l' → ∀ left rest, EndsRun rest →
      (sanitizeAuthenticatedText c (String.ofList (left ++ (l.text ++ rest))) =
        sanitizeAuthenticatedText c (String.ofList (left ++ (l'.text ++ rest))) ↔ Sealed l)) := by
  refine ⟨fun key d d' h => h.sanitized, fun hc l l' h hl' left rest hrest => ?_⟩
  rw [sanitizeAuthenticatedText_eq_iff]
  exact h.hidden_iff hc hl' left hrest

/-! ### A value with a quote -/

/-- A URL with one value. -/
def asking (value : List Char) (h : '#' ∉ value) : Link where
  head := "https://h.example/".toList
  query := 'q' :: '=' :: value
  tail := []
  head_plain := by decide
  query_plain := by simpa using h
  tail_fragment := .inl rfl

def plainLink : Link := asking "a".toList (by decide)

def otherLink : Link := asking "b".toList (by decide)

/-- What follows the quote is not part of the URL that is found. -/
def quotedLink : Link := asking "it's".toList (by decide)

theorem varies_plain : Varies asciiCodecs otherLink plainLink where
  head := rfl
  query := .cons (.inr ⟨rfl, ⟨'b', by decide⟩, 'a', by decide⟩) .nil
  tail := rfl
  accepted := rfl
  accepted' := rfl

theorem varies_quoted : Varies asciiCodecs quotedLink plainLink where
  head := rfl
  query := .cons (.inr ⟨rfl, ⟨'i', by decide⟩, 'a', by decide⟩) .nil
  tail := rfl
  accepted := rfl
  accepted' := rfl

theorem sealed_plain : Sealed plainLink := ⟨solid_of_all (by decide), .inr ⟨rfl, fun _ h => by cases h; decide⟩⟩

theorem sealed_other : Sealed otherLink := ⟨solid_of_all (by decide), .inr ⟨rfl, fun _ h => by cases h; decide⟩⟩

theorem keepsSolid_ascii : KeepsSolid asciiCodecs := by
  intro s hs ch hch
  obtain ⟨d, hd, rfl⟩ := List.mem_map.mp hch
  exact solid_toLower (hs d hd)

/-- A plain value is hidden beside another, one with a quote is not. -/
theorem query_values_hidden_quoted :
    sanitizeAuthenticatedText asciiCodecs (String.ofList (otherLink.text ++ [])) =
        sanitizeAuthenticatedText asciiCodecs (String.ofList (plainLink.text ++ [])) ∧
      ¬ sanitizeAuthenticatedText asciiCodecs (String.ofList (quotedLink.text ++ [])) =
        sanitizeAuthenticatedText asciiCodecs (String.ofList (plainLink.text ++ [])) := by
  have h := (query_values_hidden asciiCodecs).2 keepsSolid_ascii
  refine ⟨(h otherLink plainLink varies_plain sealed_plain [] [] (by simp [EndsRun])).mpr sealed_other, fun heq => ?_⟩
  have hsealed := (h quotedLink plainLink varies_quoted sealed_plain [] [] (by simp [EndsRun])).mp heq
  have hquote := hsealed.solid '\'' (by decide)
  exact absurd hquote (by decide)

/-- Two documents that differ in one value of a URL in a text, and do not look the same. -/
theorem quoted_value_survives :
    SameDocument asciiCodecs (fun _ => True) "reason" (.text (String.ofList quotedLink.text))
        (.text (String.ofList plainLink.text)) ∧
      sanitizeOutputForRequest asciiCodecs true "reason" (.text (String.ofList quotedLink.text)) =
        .text "https://h.example/?q=%5BREDACTED%5D's" ∧
      sanitizeOutputForRequest asciiCodecs true "reason" (.text (String.ofList quotedLink.text)) ≠
        sanitizeOutputForRequest asciiCodecs true "reason" (.text (String.ofList plainLink.text)) := by
  have hquoted : sanitizeOutputForRequest asciiCodecs true "reason" (.text (String.ofList quotedLink.text)) =
      .text "https://h.example/?q=%5BREDACTED%5D's" := by rfl
  have hplain : sanitizeOutputForRequest asciiCodecs true "reason" (.text (String.ofList plainLink.text)) =
      .text "https://h.example/?q=%5BREDACTED%5D" := by rfl
  have htexts : SameText asciiCodecs (fun _ => True) (quotedLink.text ++ []) (plainLink.text ++ []) :=
    .link varies_quoted trivial trivial (by simp) .nil
  refine ⟨.text (by decide) (by simpa using htexts), hquoted, ?_⟩
  rw [hquoted, hplain]
  simp

end Fetech.Documents
