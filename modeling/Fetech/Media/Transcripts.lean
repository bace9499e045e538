import Fetech.Media.Subtitles
import Fetech.Lib.JsonRoundtrip
import Fetech.Lib.Lists

/-! When the subtitle parser returns the lines of the cues.

The parser's turns over a file are those over its lines (`foldl_text`), and a line adds what it is kept
as (`wordsOf`) and a locator for each timing in it. Identifiers and times add what they should; a line
of a cue, a header or a comment adds whatever it looks like. -/
namespace Fetech.Media
open Lib Lib.Bytes Lib.Except

variable (t : DigitTables)

/-- What the parser does with a line of a file, which may be several to it. -/
def effect (s : SubtitleState) (line : Text) : SubtitleState := (splitlines line).foldl (subtitleTurn t) s

/-- What the parser keeps of a line of a file. -/
def wordsOf (line : Text) : List Text := ((splitlines line).map tidy).filter (lineKind t · = .words)

/-- How often the parser sees a timing in it. -/
def timingsOf (line : Text) : Nat := ((splitlines line).map tidy).countP (lineKind t · = .timing)

/-! ### Lines -/

section
variable {t}

theorem turn_blank (s : SubtitleState) : subtitleTurn t s [] = s := rfl

theorem foldl_splitFrom_nil (cur : Text) (s : SubtitleState) :
    (splitFrom cur []).foldl (subtitleTurn t) s = subtitleTurn t s cur := by
  rw [splitFrom]
  split
  · rename_i hcur
    rw [hcur, turn_blank]
    rfl
  · rfl

/-- A character of which the next does not matter. -/
theorem splitFrom_cons {c : CodePoint} {rest : Text} (h : c = carriageReturn → rest.head? ≠ some lineFeed) (cur : Text) :
    splitFrom cur (c :: rest) = if isBreak c then cur :: splitFrom [] rest else splitFrom (cur ++ [c]) rest := by
  cases rest with
  | nil =>
    have hne : ¬ cur ++ [c] = [] := by simp
    rw [splitFrom, splitFrom, splitFrom, if_pos rfl, if_neg hne]
  | cons d rest =>
    have hpair : ¬ (c = carriageReturn ∧ d = lineFeed) := fun hpair => h hpair.1 (hpair.2 ▸ rfl)
    rw [splitFrom, if_neg hpair]

theorem splitFrom_newline (nl : Newline) (cur rest : Text) (hrest : nl = .cr → rest.head? ≠ some lineFeed) :
    splitFrom cur (nl.text ++ rest) = cur :: splitFrom [] rest := by
  have hdiffer : ¬ lineFeed = carriageReturn := by decide
  cases nl with
  | lf => exact (splitFrom_cons (fun h => absurd h hdiffer) cur).trans (if_pos (by decide))
  | crlf => exact if_pos ⟨rfl, rfl⟩
  | cr => exact (splitFrom_cons (fun _ => hrest rfl) cur).trans (if_pos (by decide))

/-- The turns over a line that ends, and what comes after it. -/
theorem foldl_splitFrom (nl : Newline) {line : Text} (hline : lineFeed ∉ line ∧ carriageReturn ∉ line) (cur rest : Text)
    (hrest : nl = .cr → rest.head? ≠ some lineFeed) (s : SubtitleState) :
    (splitFrom cur (line ++ (nl.text ++ rest))).foldl (subtitleTurn t) s =
      (splitlines rest).foldl (subtitleTurn t) ((splitFrom cur line).foldl (subtitleTurn t) s) := by
  induction line generalizing cur s with
  | nil =>
    rw [List.nil_append, splitFrom_newline nl cur rest hrest, List.foldl_cons, foldl_splitFrom_nil]
    rfl
  | cons c line ih =>
    simp only [List.mem_cons, not_or] at hline
    have hc : ¬ c = carriageReturn := fun h => hline.2.1 h.symm
    rw [List.cons_append, splitFrom_cons (fun h => absurd h hc), splitFrom_cons (fun h => absurd h hc)]
    split
    · rw [List.foldl_cons, List.foldl_cons]
      exact ih ⟨hline.1.2, hline.2.2⟩ [] _
    · exact ih ⟨hline.1.2, hline.2.2⟩ _ s

theorem not_mem_intercalate_cr {lines : List Text} (h : ∀ line ∈ lines, lineFeed ∉ line) :
    lineFeed ∉ [carriageReturn].intercalate lines := by
  intro hmem
  obtain hsep | ⟨line, hline, hmem⟩ := Lists.mem_intercalate hmem
  · exact absurd (List.mem_singleton.mp hsep) (by decide)
  · exact h line hline hmem

/-- **The turns over a file** are those over its lines. -/
theorem foldl_text (nl : Newline) {lines : List Text} (hlines : ∀ line ∈ lines, lineFeed ∉ line ∧ carriageReturn ∉ line)
    (terminated : Bool) (s : SubtitleState) :
    (splitlines (nl.text.intercalate lines ++ if terminated then nl.text else [])).foldl (subtitleTurn t) s =
      lines.foldl (effect t) s := by
  induction lines generalizing s with
  | nil =>
    cases terminated with
    | false => rfl
    | true =>
      have hnl := splitFrom_newline nl [] [] nofun
      rw [List.append_nil] at hnl
      show (splitFrom [] nl.text).foldl (subtitleTurn t) s = s
      rw [hnl]
      rfl
  | cons line lines ih =>
    rw [List.forall_mem_cons] at hlines
    cases lines with
    | nil =>
      rw [List.intercalate_singleton]
      cases terminated with
      | false =>
        simp only [Bool.false_eq_true, if_false, List.append_nil]
        rfl
      | true =>
        have hall := foldl_splitFrom (t := t) nl hlines.1 [] [] nofun s
        rw [List.append_nil] at hall
        exact hall
    | cons next rest =>
      rw [List.intercalate_cons_cons, List.append_assoc, List.append_assoc]
      have htail : nl = .cr → (nl.text.intercalate (next :: rest) ++ if terminated then nl.text else []).head? ≠ some lineFeed := by
        intro hnl hhead
        subst hnl
        have hmem := List.mem_of_mem_head? hhead
        rw [List.mem_append] at hmem
        obtain hmem | hmem := hmem
        · exact not_mem_intercalate_cr (fun line hline => (hlines.2 line hline).1) hmem
        · cases terminated with
          | false => cases hmem
          | true => exact absurd (List.mem_singleton.mp hmem) (by decide)
      have hall := foldl_splitFrom (t := t) nl hlines.1 [] _ htail s
      rw [show splitlines _ = splitFrom [] _ from rfl, hall]
      exact ih hlines.2 _

/-! ### What a line adds -/

theorem output_foldl (pieces : List Text) (s : SubtitleState) : (pieces.foldl (subtitleTurn t) s).output =
    s.output ++ (pieces.map tidy).filter (lineKind t · = .words) := by
  induction pieces generalizing s with
  | nil => simp
  | cons piece pieces ih =>
    rw [List.foldl_cons, ih, List.map_cons, List.filter_cons, subtitleTurn]
    cases lineKind t (tidy piece) with
    | ignored => rfl
    | timing => rfl
    | words => simp

theorem cueIndex_foldl (pieces : List Text) (s : SubtitleState) : (pieces.foldl (subtitleTurn t) s).cueIndex =
    s.cueIndex + (pieces.map tidy).countP (lineKind t · = .timing) := by
  induction pieces generalizing s with
  | nil => simp
  | cons piece pieces ih =>
    rw [List.foldl_cons, ih, List.map_cons, List.countP_cons, subtitleTurn]
    cases lineKind t (tidy piece) with
    | ignored => rfl
    | timing => simp only [decide_true, if_true]; omega
    | words => rfl

theorem output_effect (s : SubtitleState) (line : Text) : (effect t s line).output = s.output ++ wordsOf t line :=
  output_foldl _ s

theorem cueIndex_effect (s : SubtitleState) (line : Text) : (effect t s line).cueIndex = s.cueIndex + timingsOf t line :=
  cueIndex_foldl _ s

/-- The locators so far are those of the cues so far, and the current one is the last of them. -/
structure Tracked (s : SubtitleState) : Prop where
  locators : s.locators = (List.range s.cueIndex).map fun i => cueLocator (i + 1)
  current : 0 < s.cueIndex → s.currentLocator = cueLocator s.cueIndex

/-- Words may only come after a timing. -/
theorem Tracked.foldl {pieces : List Text} {s : SubtitleState} (h : Tracked s)
    (hwords : 0 < s.cueIndex ∨ (pieces.map tidy).filter (lineKind t · = .words) = []) :
    Tracked (pieces.foldl (subtitleTurn t) s) := by
  induction pieces generalizing s with
  | nil => exact h
  | cons piece pieces ih =>
    rw [List.foldl_cons, subtitleTurn]
    rw [List.map_cons, List.filter_cons] at hwords
    cases hkind : lineKind t (tidy piece) with
    | ignored =>
      rw [hkind] at hwords
      exact ih h hwords
    | timing =>
      refine ih ⟨?_, fun _ => rfl⟩ (.inl (Nat.succ_pos _))
      show s.locators ++ [cueLocator (s.cueIndex + 1)] = (List.range (s.cueIndex + 1)).map fun i => cueLocator (i + 1)
      rw [List.range_succ, List.map_append, ← h.locators]
      rfl
    | words =>
      rw [hkind] at hwords
      have hpos : 0 < s.cueIndex := hwords.resolve_right (by simp)
      have hmem : s.currentLocator ∈ s.locators := by
        rw [h.current hpos, h.locators, List.mem_map]
        refine ⟨s.cueIndex - 1, by rw [List.mem_range]; omega, ?_⟩
        rw [Nat.sub_add_cancel hpos]
      refine ih ⟨?_, h.current⟩ (.inl hpos)
      show (if s.currentLocator ∈ s.locators then _ else _) = _
      rw [if_pos hmem]
      exact h.locators

theorem Tracked.effect {s : SubtitleState} (h : Tracked s) {line : Text} (hwords : 0 < s.cueIndex ∨ wordsOf t line = []) :
    Tracked (effect t s line) := h.foldl hwords

end

/-! ### Identifiers and times -/

section
variable {t}

/-- ASCII without boundaries of lines and controls. -/
def IsPlain (c : CodePoint) : Prop := isBreak c = false ∧ isControl c = false ∧ c.val < 0x80

def Plain (line : Text) : Prop := ∀ c ∈ line, IsPlain c

theorem plain_append {a b : Text} : Plain (a ++ b) ↔ Plain a ∧ Plain b := List.forall_mem_append

theorem plain_of_printable {c : CodePoint} (h : 0x20 ≤ c.val ∧ c.val < 0x7f) : IsPlain c := by
  simp only [IsPlain, isBreak, isOtherBreak, isControl, lineFeed, carriageReturn, Bool.or_eq_false_iff, Bool.and_eq_false_iff,
    decide_eq_false_iff_not, Fin.ext_iff]
  have hlf : ((0xa : CodePoint) : Nat) = 0xa := rfl
  have hcr : ((0xd : CodePoint) : Nat) = 0xd := rfl
  rw [hlf, hcr]
  omega

theorem plain_of_digits {digits : Text} (h : ∀ c ∈ digits, JsonText.isDigit c = true) : Plain digits := by
  intro c hc
  have hdigit := h c hc
  rw [JsonText.isDigit, Bool.and_eq_true, decide_eq_true_eq, decide_eq_true_eq] at hdigit
  exact plain_of_printable (by omega)

/-- Plain text is in one line, and can be encoded. -/
theorem Plain.isLine {line : Text} (h : Plain line) :
    (lineFeed ∉ line ∧ carriageReturn ∉ line) ∧ Text.encodable line = true := by
  refine ⟨⟨fun hmem => absurd (h _ hmem).1 (by decide), fun hmem => absurd (h _ hmem).1 (by decide)⟩, ?_⟩
  rw [Text.encodable, List.all_eq_true]
  intro c hc
  have hascii := (h c hc).2.2
  rw [CodePoint.isSurrogate, Bool.not_eq_true', Bool.and_eq_false_iff, decide_eq_false_iff_not]
  omega

/-- A line without boundaries in it. -/
theorem splitFrom_unbroken {line : Text} (h : ∀ c ∈ line, isBreak c = false) (cur : Text) :
    splitFrom cur line = if cur ++ line = [] then [] else [cur ++ line] := by
  induction line generalizing cur with
  | nil => rw [splitFrom, List.append_nil]
  | cons c line ih =>
    rw [List.forall_mem_cons] at h
    have hreturn : ¬ c = carriageReturn := by
      intro heq
      have hbreak := h.1
      rw [heq] at hbreak
      exact absurd hbreak (by decide)
    rw [splitFrom_cons (fun heq => absurd heq hreturn), h.1, if_neg Bool.false_ne_true, ih h.2, List.append_assoc]
    rfl

/-- Before the first boundary the line only grows. -/
theorem splitFrom_plain {a : Text} (h : Plain a) (rest : Text) : splitFrom [] (a ++ rest) = splitFrom a rest := by
  suffices hall : ∀ cur, splitFrom cur (a ++ rest) = splitFrom (cur ++ a) rest from hall []
  induction a with
  | nil => exact fun cur => by rw [List.append_nil, List.nil_append]
  | cons c a ih =>
    intro cur
    obtain ⟨⟨hbreak, -⟩, ha⟩ := List.forall_mem_cons.mp h
    have hreturn : ¬ c = carriageReturn := by
      intro heq
      rw [heq] at hbreak
      exact absurd hbreak (by decide)
    rw [List.cons_append, splitFrom_cons (fun heq => absurd heq hreturn), hbreak, if_neg Bool.false_ne_true, ih ha, List.append_assoc]
    rfl

theorem splitlines_unbroken {line : Text} (hne : line ≠ []) (h : ∀ c ∈ line, isBreak c = false) : splitlines line = [line] := by
  rw [splitlines, splitFrom_unbroken h, List.nil_append, if_neg hne]

theorem clean_plain {line : Text} (h : Plain line) : clean line = line := by
  refine List.filter_eq_self.mpr fun c hc => ?_
  rw [(h c hc).2.1]
  rfl

theorem splitlines_plain {line : Text} (hne : line ≠ []) (h : Plain line) : splitlines line = [line] :=
  splitlines_unbroken hne fun c hc => (h c hc).1

/-- Only the end is stripped of what starts and goes on without blanks. -/
theorem strip_append {a : Text} (rest : Text) (hfirst : ∀ c ∈ a.head?, isSpace c = false) (hlast : ∀ c ∈ a.getLast?, isSpace c = false)
    (hne : a ≠ []) : strip (a ++ rest) = a ++ (rest.reverse.dropWhile isSpace).reverse := by
  obtain ⟨c, a', rfl⟩ := List.exists_cons_of_ne_nil hne
  have hc := hfirst c rfl
  have hstart : (c :: a' ++ rest).dropWhile isSpace = c :: a' ++ rest := by
    rw [List.cons_append, List.dropWhile_cons_of_neg (by rw [hc]; exact Bool.false_ne_true)]
  have hend : (c :: a').reverse.dropWhile isSpace = (c :: a').reverse := by
    cases hreverse : (c :: a').reverse with
    | nil => rfl
    | cons d b =>
      have hd : isSpace d = false := by
        refine hlast d ?_
        rw [← List.head?_reverse, hreverse]
        rfl
      rw [List.dropWhile_cons_of_neg (by rw [hd]; exact Bool.false_ne_true)]
  rw [strip, hstart, List.reverse_append, List.dropWhile_append]
  split
  · rename_i hempty
    rw [List.isEmpty_iff] at hempty
    rw [hend, List.reverse_reverse, hempty, List.reverse_nil, List.append_nil]
  · rw [List.reverse_append, List.reverse_reverse]

theorem digit_not_space {c : CodePoint} (h : JsonText.isDigit c = true) : isSpace c = false := by
  rw [JsonText.isDigit, Bool.and_eq_true, decide_eq_true_eq, decide_eq_true_eq] at h
  simp only [isSpace, Bool.or_eq_false_iff, Bool.and_eq_false_iff, decide_eq_false_iff_not]
  omega

theorem digit_tables (t : DigitTables) {c : CodePoint} (h : JsonText.isDigit c = true) : t.isDigit c = true ∧ t.isDecimal c = true := by
  have hascii : c.val < 0x80 := by
    rw [JsonText.isDigit, Bool.and_eq_true, decide_eq_true_eq, decide_eq_true_eq] at h
    omega
  have htables := t.ascii c hascii
  exact ⟨htables.1.trans h, htables.2.trans h⟩

/-- **An identifier** is passed over. -/
theorem kind_number {digits : Text} (h : JsonText.Digits digits) :
    splitlines digits = [digits] ∧ lineKind t (tidy digits) = .ignored := by
  have hplain := plain_of_digits h.2
  have hstrip : strip digits = digits := by
    have hall := strip_append [] (fun c hc => digit_not_space (h.2 c (List.mem_of_mem_head? hc)))
      (fun c hc => digit_not_space (h.2 c (List.mem_of_getLast? hc))) h.1
    simpa using hall
  have hdigits : digits.all t.isDigit = true := List.all_eq_true.mpr fun c hc => (digit_tables t (h.2 c hc)).1
  refine ⟨splitlines_plain h.1 hplain, ?_⟩
  rw [tidy, clean_plain hplain, hstrip, lineKind, if_pos (by rw [hdigits, Bool.or_true])]

/-- What begins and ends with a digit. -/
structure Framed (a : Text) : Prop where
  plain : Plain a
  first : ∃ c ∈ a.head?, JsonText.isDigit c = true
  last : ∃ c ∈ a.getLast?, JsonText.isDigit c = true

theorem Framed.ne_nil {a : Text} (h : Framed a) : a ≠ [] := by
  obtain ⟨c, hc, -⟩ := h.first
  intro hnil
  rw [hnil] at hc
  cases hc

theorem Framed.append {a b : Text} (ha : Framed a) (hb : Framed b) (mid : Text) (hmid : Plain mid) : Framed (a ++ mid ++ b) := by
  refine ⟨plain_append.mpr ⟨plain_append.mpr ⟨ha.plain, hmid⟩, hb.plain⟩, ?_, ?_⟩
  · obtain ⟨c, hc, hdigit⟩ := ha.first
    refine ⟨c, ?_, hdigit⟩
    rw [List.append_assoc, List.head?_append, Option.mem_def.mp hc]
    rfl
  · obtain ⟨c, hc, hdigit⟩ := hb.last
    refine ⟨c, ?_, hdigit⟩
    rw [List.getLast?_append, Option.mem_def.mp hc]
    rfl

theorem framed_digits {digits : Text} (h : JsonText.Digits digits) : Framed digits := by
  refine ⟨plain_of_digits h.2, ⟨digits.head h.1, List.head_mem_head? h.1, h.2 _ (List.head_mem h.1)⟩, ?_⟩
  exact ⟨digits.getLast h.1, List.getLast_mem_getLast? h.1, h.2 _ (List.getLast_mem h.1)⟩

theorem Framed.leads {a : Text} (h : Framed a) (rest : Text) : ∀ c ∈ (a ++ rest).head?, c.val < 0x80 := by
  obtain ⟨c, hc, hdigit⟩ := h.first
  intro d hd
  rw [List.head?_append, Option.mem_def.mp hc] at hd
  cases hd
  exact (h.plain c (List.mem_of_mem_head? hc)).2.2

theorem digits_append {a b : Text} (ha : JsonText.Digits a) (hb : JsonText.Digits b) : JsonText.Digits (a ++ b) :=
  ⟨List.append_ne_nil_of_left_ne_nil ha.1 b, List.forall_mem_append.mpr ⟨ha.2, hb.2⟩⟩

theorem digits_digit {n : Nat} (h : n < 10) : JsonText.Digits [JsonText.digit n] :=
  ⟨List.cons_ne_nil _ _, List.forall_mem_singleton.mpr (JsonText.isDigit_digit h)⟩

theorem digits_twoDigits {n : Nat} (h : n < 100) : JsonText.Digits (twoDigits n) :=
  digits_append (digits_digit (by omega)) (digits_digit (Nat.mod_lt n (by decide)))

theorem digits_writeNat (n : Nat) : JsonText.Digits (JsonText.writeNat n) := (JsonText.whole_writeNat n).1

/-- The hours of a time, if it has them. -/
def hoursText (hours : Nat) : Text := if hours < 10 then JsonText.digit 0 :: JsonText.writeNat hours else JsonText.writeNat hours

theorem digits_hoursText (hours : Nat) : JsonText.Digits (hoursText hours) := by
  unfold hoursText
  split
  · exact digits_append (digits_digit (by decide)) (digits_writeNat hours)
  · exact digits_writeNat hours

theorem plain_colon : Plain [colon] := List.forall_mem_singleton.mpr (plain_of_printable (by decide))

theorem framed_short (stamp : Stamp) : Framed stamp.short := by
  have hminutes := framed_digits (digits_twoDigits (Nat.lt_trans stamp.minutes.isLt (by decide)))
  have hseconds := framed_digits (digits_twoDigits (Nat.lt_trans stamp.seconds.isLt (by decide)))
  have hmillis : Framed (JsonText.digit (stamp.millis / 100) :: twoDigits (stamp.millis % 100)) := by
    have hlt := stamp.millis.isLt
    exact framed_digits (digits_append (digits_digit (by omega)) (digits_twoDigits (Nat.mod_lt _ (by decide))))
  have hpoint : Plain [if stamp.comma then 0x2c else 0x2e] := by
    intro c hc
    rw [List.mem_singleton.mp hc]
    refine plain_of_printable ?_
    cases stamp.comma <;> decide
  have hall := (hminutes.append hseconds [colon] plain_colon).append hmillis _ hpoint
  simpa only [Stamp.short, List.append_assoc, List.cons_append, List.nil_append] using hall

theorem Stamp.text_some {stamp : Stamp} {hours : Nat} (h : stamp.hours = some hours) :
    stamp.text = hoursText hours ++ [colon] ++ stamp.short := by
  rw [Stamp.text, h, List.append_assoc, List.singleton_append]
  rfl

theorem Stamp.text_none {stamp : Stamp} (h : stamp.hours = none) : stamp.text = stamp.short := by
  rw [Stamp.text, h]

theorem framed_text (stamp : Stamp) : Framed stamp.text := by
  cases h : stamp.hours with
  | none =>
    rw [Stamp.text_none h]
    exact framed_short stamp
  | some hours =>
    rw [Stamp.text_some h]
    exact (framed_digits (digits_hoursText hours)).append (framed_short stamp) [colon] plain_colon

theorem isDecimal_digit {n : Nat} (h : n < 10) : t.isDecimal (JsonText.digit n) = true := (digit_tables t (JsonText.isDigit_digit h)).2

theorem isDecimal_colon : t.isDecimal colon = false := (t.ascii colon (by decide)).2.trans (by decide)

theorem shortStamp_short (stamp : Stamp) (rest : Text) : shortStamp t (stamp.short ++ rest) = some rest := by
  have hminutes := stamp.minutes.isLt
  have hseconds := stamp.seconds.isLt
  have hmillis := stamp.millis.isLt
  have hpoint : (decide ((if stamp.comma then (0x2c : CodePoint) else 0x2e) = 0x2c) ||
      decide ((if stamp.comma then (0x2c : CodePoint) else 0x2e) = 0x2e)) = true := by
    cases stamp.comma <;> decide
  simp only [Stamp.short, twoDigits, List.cons_append, List.nil_append, shortStamp]
  rw [isDecimal_digit (by omega), isDecimal_digit (by omega), isDecimal_digit (by omega), isDecimal_digit (by omega),
    isDecimal_digit (by omega), isDecimal_digit (by omega), isDecimal_digit (by omega), hpoint]
  rfl

theorem shortStamp_third {c : CodePoint} (h : c ≠ colon) (a b : CodePoint) (rest : Text) : shortStamp t (a :: b :: c :: rest) = none := by
  unfold shortStamp
  split
  · rename_i heq
    cases heq
    rw [decide_eq_false h]
    simp only [Bool.and_false, Bool.false_and, Bool.false_eq_true, if_false]
  · rfl

theorem span_decimal {digits : Text} (h : ∀ c ∈ digits, JsonText.isDigit c = true) (rest : Text) :
    (digits ++ colon :: rest).span t.isDecimal = (digits, colon :: rest) := by
  rw [List.span_eq_takeWhile_dropWhile, List.takeWhile_append_of_pos fun c hc => (digit_tables t (h c hc)).2,
    List.dropWhile_append_of_pos fun c hc => (digit_tables t (h c hc)).2,
    List.takeWhile_cons_of_neg (by rw [isDecimal_colon]; exact Bool.false_ne_true),
    List.dropWhile_cons_of_neg (by rw [isDecimal_colon]; exact Bool.false_ne_true), List.append_nil]

/-- A time is matched, and no more than it. -/
theorem stamp_text (stamp : Stamp) (rest : Text) : Media.stamp t (stamp.text ++ rest) = some rest := by
  cases h : stamp.hours with
  | none =>
    rw [Stamp.text_none h, Media.stamp, shortStamp_short]
    have hminutes := digits_twoDigits (Nat.lt_trans stamp.minutes.isLt (by decide))
    have hlong : longStamp t (stamp.short ++ rest) = none := by
      rw [longStamp, Stamp.short, List.append_assoc, List.cons_append, span_decimal hminutes.2]
      simp only [twoDigits, List.cons_append, List.nil_append, if_true]
      refine shortStamp_third ?_ _ _ _
      cases stamp.comma <;> decide
    rw [hlong, Option.none_or]
  | some hours =>
    have hdigits := digits_hoursText hours
    have hlong : longStamp t (stamp.text ++ rest) = some rest := by
      rw [longStamp, Stamp.text_some h, List.append_assoc, List.append_assoc, List.singleton_append, span_decimal hdigits.2]
      obtain ⟨c, digits, hcons⟩ := List.exists_cons_of_ne_nil hdigits.1
      rw [hcons]
      exact (if_pos rfl).trans (shortStamp_short stamp rest)
    rw [Media.stamp, hlong, Option.some_or]

theorem isSpace_digit {a : Text} (h : Framed a) (rest : Text) : (a ++ rest).dropWhile isSpace = a ++ rest := by
  obtain ⟨c, hc, hdigit⟩ := h.first
  obtain ⟨a', rfl⟩ := List.head?_eq_some_iff.mp hc
  rw [List.cons_append, List.dropWhile_cons_of_neg (by rw [digit_not_space hdigit]; exact Bool.false_ne_true)]

/-- Only the end is stripped of what it goes on with. -/
theorem Framed.strip {a : Text} (h : Framed a) (rest : Text) : strip (a ++ rest) = a ++ (rest.reverse.dropWhile isSpace).reverse := by
  obtain ⟨first, hfirst, hfirst'⟩ := h.first
  obtain ⟨last, hlast, hlast'⟩ := h.last
  refine strip_append rest (fun c hc => ?_) (fun c hc => ?_) h.ne_nil
  · rw [Option.mem_unique hc hfirst]
    exact digit_not_space hfirst'
  · rw [Option.mem_unique hc hlast]
    exact digit_not_space hlast'

/-- What is nothing, or begins with a blank. -/
def Separate (rest : Text) : Prop := ∀ c ∈ rest.head?, IsBlank c

theorem isSpace_of_isBlank {c : CodePoint} (h : IsBlank c) : isSpace c = true := by
  obtain rfl | rfl := h
  · decide
  · decide

theorem plain_of_isBlank {c : CodePoint} (h : IsBlank c) : IsPlain c := by
  unfold IsPlain
  obtain rfl | rfl := h
  · decide
  · decide

/-- Stripping the end of what is nothing, or begins with a blank, leaves such. -/
theorem Separate.stripped {rest : Text} (h : Separate rest) :
    let left := (rest.reverse.dropWhile isSpace).reverse
    (left.isEmpty || left.head?.any isSpace) = true := by
  intro left
  have hprefix : left <+: rest := by
    have hsuffix := List.dropWhile_suffix isSpace (l := rest.reverse)
    rw [← List.reverse_prefix, List.reverse_reverse] at hsuffix
    exact hsuffix
  cases hleft : left with
  | nil => rfl
  | cons c left' =>
    rw [hleft] at hprefix
    obtain ⟨tail, htail⟩ := hprefix
    have hc : IsBlank c := h c (by rw [← htail]; rfl)
    exact (Bool.false_or _).trans (isSpace_of_isBlank hc)

theorem dropWhile_blanks {blanks : Text} (h : ∀ c ∈ blanks, IsBlank c) (rest : Text) :
    (blanks ++ rest).dropWhile isSpace = rest.dropWhile isSpace :=
  List.dropWhile_append_of_pos fun c hc => isSpace_of_isBlank (h c hc)

theorem isTiming_text (cue : Cue) {left : Text} (hleft : (left.isEmpty || left.head?.any isSpace) = true) :
    isTiming t (cue.start.text ++ (cue.before ++ arrow ++ cue.after) ++ cue.stop.text ++ left) = true := by
  obtain ⟨hbefore, hafter⟩ := List.forall_mem_append.mp cue.gaps
  have hstart : Media.stamp t ((cue.start.text ++ (cue.before ++ arrow ++ cue.after) ++ cue.stop.text ++ left).dropWhile isSpace) =
      some (cue.before ++ (arrow ++ (cue.after ++ (cue.stop.text ++ left)))) := by
    simp only [List.append_assoc]
    rw [isSpace_digit (framed_text cue.start), stamp_text]
  have hspace : (cue.before ++ (arrow ++ (cue.after ++ (cue.stop.text ++ left)))).dropWhile isSpace =
      arrow ++ (cue.after ++ (cue.stop.text ++ left)) := dropWhile_blanks hbefore _
  have hstop : Media.stamp t (((arrow ++ (cue.after ++ (cue.stop.text ++ left))).drop 3).dropWhile isSpace) = some left := by
    show Media.stamp t ((cue.after ++ (cue.stop.text ++ left)).dropWhile isSpace) = some left
    rw [dropWhile_blanks hafter, isSpace_digit (framed_text cue.stop), stamp_text]
  rw [isTiming, hstart]
  dsimp only
  rw [hspace, hstop]
  exact hleft

/-- What begins with a digit and is not all digits is a timing if it looks like one. -/
theorem lineKind_timing {a rest : Text} (ha : Framed a) {c : CodePoint} (hc : c ∈ a) (hdigit : t.isDigit c = false)
    (htiming : isTiming t (a ++ rest) = true) : lineKind t (a ++ rest) = .timing := by
  obtain ⟨d, hd, hd'⟩ := ha.first
  obtain ⟨a', rfl⟩ := List.head?_eq_some_iff.mp hd
  have hvtt : ¬ d :: a' ++ rest = webvtt := by
    intro heq
    have hhead : d = 0x57 := (List.cons_eq_cons.mp heq).1
    rw [hhead] at hd'
    exact absurd hd' (by decide)
  have hdigits : (d :: a' ++ rest).all t.isDigit = false :=
    List.all_eq_false.mpr ⟨c, List.mem_append_left _ hc, by rw [hdigit]; exact Bool.false_ne_true⟩
  have hempty : (d :: a' ++ rest).isEmpty = false := rfl
  rw [lineKind, hempty, hdigits, decide_eq_false hvtt, if_neg (by decide), if_pos htiming]

/-- The first of the lines that the parser sees in a line. -/
theorem splitFrom_take {line : Text} (hline : carriageReturn ∉ line) {cur : Text} (hcur : cur ≠ []) :
    ∃ more, splitFrom cur line = (cur ++ line.takeWhile fun c => !isBreak c) :: more := by
  induction line generalizing cur with
  | nil => exact ⟨[], by rw [splitFrom, if_neg hcur, List.takeWhile_nil, List.append_nil]⟩
  | cons c line ih =>
    rw [List.mem_cons, not_or] at hline
    rw [splitFrom_cons fun h => absurd h.symm hline.1]
    cases hbreak : isBreak c with
    | true => exact ⟨splitFrom [] line, by rw [if_pos rfl, List.takeWhile_cons, hbreak]; simp⟩
    | false =>
      obtain ⟨more, hmore⟩ := ih hline.2 (List.append_ne_nil_of_left_ne_nil hcur [c])
      refine ⟨more, ?_⟩
      rw [if_neg Bool.false_ne_true, hmore, List.takeWhile_cons, hbreak, List.append_assoc]
      rfl

theorem arrow_printable : ∀ c ∈ arrow, 0x20 ≤ c.val ∧ c.val < 0x7f := by
  have harrow : arrow = [0x2d, 0x2d, 0x3e] := rfl
  rw [harrow, List.forall_mem_cons, List.forall_mem_cons, List.forall_mem_singleton]
  decide

/-- **The times of a cue** are seen as such, whatever the settings. -/
theorem timing_pieces (cue : Cue) : ∃ piece more, splitlines cue.timing = piece :: more ∧ lineKind t (tidy piece) = .timing := by
  have hgap : Plain (cue.before ++ arrow ++ cue.after) := by
    obtain ⟨hbefore, hafter⟩ := List.forall_mem_append.mp cue.gaps
    have harrow : Plain arrow := fun c hc => plain_of_printable (arrow_printable c hc)
    exact plain_append.mpr ⟨plain_append.mpr ⟨fun c hc => plain_of_isBlank (hbefore c hc), harrow⟩,
      fun c hc => plain_of_isBlank (hafter c hc)⟩
  have hframed := (framed_text cue.start).append (framed_text cue.stop) _ hgap
  obtain ⟨more, hmore⟩ : ∃ more, splitlines cue.timing = (cue.start.text ++ (cue.before ++ arrow ++ cue.after) ++ cue.stop.text ++
      cue.settings.takeWhile fun c => !isBreak c) :: more := by
    rw [splitlines, Cue.timing, splitFrom_plain hframed.plain]
    exact splitFrom_take cue.isLine.oneLine.2 hframed.ne_nil
  refine ⟨_, more, hmore, ?_⟩
  have hseparate : Separate (clean (cue.settings.takeWhile fun c => !isBreak c)) := by
    cases hsettings : cue.settings with
    | nil => exact nofun
    | cons c settings =>
      have hc : IsBlank c := cue.separated c (by rw [hsettings]; rfl)
      obtain ⟨hbreak, hcontrol, -⟩ := plain_of_isBlank hc
      intro d hd
      rw [List.takeWhile_cons, hbreak, clean, Bool.not_false, if_pos rfl, List.filter_cons, hcontrol] at hd
      cases hd
      exact hc
  rw [tidy, clean, List.filter_append, ← clean, ← clean, clean_plain hframed.plain, hframed.strip]
  have hdash : (0x2d : CodePoint) ∈ cue.start.text ++ (cue.before ++ arrow ++ cue.after) ++ cue.stop.text := by
    simp only [List.mem_append]
    exact .inl (.inr (.inl (.inr (by decide))))
  exact lineKind_timing hframed hdash ((t.ascii 0x2d (by decide)).1.trans (by decide))
    (isTiming_text cue hseparate.stripped)

end

/-! ### Files -/

/-- What is kept of a file. -/
def SubtitleFile.words (file : SubtitleFile) : List Text := file.parts.flatten.flatMap (wordsOf t ·.text)

/-- The timings that are seen in a file. -/
def SubtitleFile.timings (file : SubtitleFile) : Nat := (file.parts.flatten.map (timingsOf t ·.text)).sum

/-- Each line of a cue is kept, and no other. -/
structure Keeps (file : SubtitleFile) : Prop where
  payload : ∀ line ∈ file.payload, wordsOf t line = [tidy line]
  others : ∀ line ∈ file.others, wordsOf t line = []

/-- The file's lines are taken for what they are: each line of a cue is kept, of which there is one, no
other is, and none but the lines of times is taken for a timing; and there are no more cues than locators
are returned. -/
structure Clear (file : SubtitleFile) : Prop extends Keeps t file where
  hasText : file.payload ≠ []
  cues : file.cues.length ≤ maximumLocators
  timings : file.cues.length = maximumLocators ∨ file.timings t = file.cues.length

/-- The parser returns the lines of the cues, and a locator for each cue. -/
def Parses (file : SubtitleFile) : Prop := ∀ maximum, file.body.length ≤ maximum → parseSubtitleText t file.body maximum =
  .ok (joinLines (file.payload.map tidy), (List.range file.cues.length).map fun i => cueLocator (i + 1))

/-- The lines of cues hold no boundary of lines. -/
def Unbroken (file : SubtitleFile) : Prop := ∀ line ∈ file.payload, ∀ c ∈ line, isOtherBreak c = false

section
variable {t}

/-- What each line of a file is. -/
structure Proper (line : FileLine) : Prop where
  oneLine : lineFeed ∉ line.text ∧ carriageReturn ∉ line.text
  encodable : Text.encodable line.text = true

/-- The lines with which anything may begin. -/
def Leads (line : FileLine) : Prop := ∀ c ∈ line.text.head?, c.val < 0x80

theorem plain_timing (cue : Cue) : Framed (cue.start.text ++ (cue.before ++ arrow ++ cue.after) ++ cue.stop.text) := by
  obtain ⟨hbefore, hafter⟩ := List.forall_mem_append.mp cue.gaps
  have harrow : Plain arrow := fun c hc => plain_of_printable (arrow_printable c hc)
  have hgap : Plain (cue.before ++ arrow ++ cue.after) :=
    plain_append.mpr ⟨plain_append.mpr ⟨fun c hc => plain_of_isBlank (hbefore c hc), harrow⟩,
      fun c hc => plain_of_isBlank (hafter c hc)⟩
  exact (framed_text cue.start).append (framed_text cue.stop) _ hgap

theorem encodable_append {a b : Text} (ha : Text.encodable a = true) (hb : Text.encodable b = true) : Text.encodable (a ++ b) = true := by
  rw [Text.encodable, List.all_append, Bool.and_eq_true]
  exact ⟨ha, hb⟩

theorem proper_timing (cue : Cue) : Proper (.timing cue) := by
  have hplain := (plain_timing cue).plain.isLine
  refine ⟨⟨?_, ?_⟩, encodable_append hplain.2 cue.isLine.encodable⟩
  · exact List.mem_append.not.mpr (not_or.mpr ⟨hplain.1.1, cue.isLine.oneLine.1⟩)
  · exact List.mem_append.not.mpr (not_or.mpr ⟨hplain.1.2, cue.isLine.oneLine.2⟩)

theorem proper_block {block : FileBlock} {line : FileLine} (h : line ∈ block.lines) : Proper line := by
  cases block with
  | nothing => cases h
  | comment c =>
    obtain h | h := List.mem_cons.mp h
    · rw [h]
      exact ⟨c.first.oneLine, c.first.encodable⟩
    · obtain ⟨other, hother, rfl⟩ := List.mem_map.mp h
      exact ⟨(c.isLine other hother).oneLine, (c.isLine other hother).encodable⟩
  | cue c =>
    obtain h | h := List.mem_append.mp h
    · obtain ⟨digits, hdigits, rfl⟩ := List.mem_map.mp h
      have hplain := (plain_of_digits (c.isNumber digits (Option.mem_toList.mp hdigits)).2).isLine
      exact ⟨hplain.1, hplain.2⟩
    · obtain h | h := List.mem_cons.mp h
      · rw [h]
        exact proper_timing c
      · obtain ⟨words, hwords, rfl⟩ := List.mem_map.mp h
        exact ⟨(c.lines words hwords).oneLine, (c.lines words hwords).encodable⟩

theorem proper_parts {file : SubtitleFile} {part : List FileLine} (hpart : part ∈ file.parts) {line : FileLine} (h : line ∈ part) :
    Proper line := by
  obtain hpart | hpart := List.mem_append.mp hpart
  · obtain ⟨rest, hrest, rfl⟩ := List.mem_map.mp hpart
    rw [List.mem_singleton.mp h]
    have hline := (file.isHeader rest (Option.mem_toList.mp hrest)).2
    exact ⟨hline.oneLine, hline.encodable⟩
  · obtain ⟨block, -, rfl⟩ := List.mem_map.mp hpart
    exact proper_block h

theorem proper_lines {file : SubtitleFile} {line : FileLine} (h : line ∈ file.lines) : Proper line := by
  obtain h | ⟨part, hpart, h⟩ := Lists.mem_intercalate h
  · rw [List.mem_singleton.mp h]
    exact ⟨by decide, rfl⟩
  · exact proper_parts hpart h

/-- Nothing begins with a line of a cue. -/
theorem leads_part {file : SubtitleFile} {part : List FileLine} (hpart : part ∈ file.parts) {line : FileLine}
    (h : line ∈ part.head?) : Leads line := by
  obtain hpart | hpart := List.mem_append.mp hpart
  · obtain ⟨rest, hrest, rfl⟩ := List.mem_map.mp hpart
    cases h
    intro c hc
    cases hc
    decide
  · obtain ⟨block, -, rfl⟩ := List.mem_map.mp hpart
    cases block with
    | nothing => cases h
    | comment c =>
      cases h
      intro d hd
      cases hkind : c.kind with
      | note => rw [FileLine.text, hkind] at hd; cases hd; decide
      | style => rw [FileLine.text, hkind] at hd; cases hd; decide
      | region => rw [FileLine.text, hkind] at hd; cases hd; decide
    | cue c =>
      cases hid : c.identifier with
      | none =>
        rw [FileBlock.lines, Cue.fileLines, hid] at h
        cases h
        exact (plain_timing c).leads c.settings
      | some digits =>
        rw [FileBlock.lines, Cue.fileLines, hid] at h
        cases h
        have hdigits := (framed_digits (c.isNumber digits hid)).leads []
        rwa [List.append_nil] at hdigits

theorem leads_lines {file : SubtitleFile} {line : FileLine} (h : line ∈ file.lines.head?) : Leads line := by
  have hall : ∀ parts : List (List FileLine), (∀ part ∈ parts, ∀ line ∈ part.head?, Leads line) →
      ∀ line ∈ ([FileLine.blank].intercalate parts).head?, Leads line := by
    intro parts hparts line hline
    obtain hline | ⟨part, hpart, hline⟩ := Lists.mem_head?_intercalate (List.cons_ne_nil _ _) hline
    · cases hline
      exact nofun
    · exact hparts part (List.mem_of_mem_head? hpart) line hline
  exact hall file.parts (fun part hpart line hline => leads_part hpart hline) line h

/-- The first character of a file is no mark. -/
theorem ascii_text {file : SubtitleFile} {c : CodePoint} (h : c ∈ file.text.head?) : c.val < 0x80 := by
  have hnewline : ∀ c ∈ file.newline.text.head?, c.val < 0x80 := by
    cases file.newline with
    | lf => exact fun c hc => by cases hc; decide
    | crlf => exact fun c hc => by cases hc; decide
    | cr => exact fun c hc => by cases hc; decide
  have hne : file.newline.text ≠ [] := by
    cases file.newline <;> exact List.cons_ne_nil _ _
  rw [SubtitleFile.text, List.head?_append] at h
  cases hbody : (file.newline.text.intercalate (file.lines.map FileLine.text)).head? with
  | none =>
    rw [hbody, Option.none_or] at h
    cases hterminated : file.terminated with
    | false =>
      rw [hterminated] at h
      cases h
    | true =>
      rw [hterminated] at h
      exact hnewline c h
  | some d =>
    rw [hbody] at h
    cases h
    obtain hd | ⟨line, hline, hd⟩ := Lists.mem_head?_intercalate hne hbody
    · exact hnewline c hd
    · rw [List.head?_map, Option.mem_def, Option.map_eq_some_iff] at hline
      obtain ⟨fileLine, hfileLine, rfl⟩ := hline
      exact leads_lines hfileLine c hd

/-- The text of a file can be encoded. -/
theorem encodable_text (file : SubtitleFile) : Text.encodable file.text = true := by
  have hnewline : Text.encodable file.newline.text = true := by
    cases file.newline <;> rfl
  refine encodable_append ?_ ?_
  · rw [Text.encodable, List.all_eq_true]
    intro c hc
    obtain hc | ⟨line, hline, hc⟩ := Lists.mem_intercalate hc
    · exact List.all_eq_true.mp hnewline c hc
    · obtain ⟨fileLine, hfileLine, rfl⟩ := List.mem_map.mp hline
      exact List.all_eq_true.mp (proper_lines hfileLine).encodable c hc
  · split
    · exact hnewline
    · rfl

theorem decode_body (file : SubtitleFile) : Utf8.decode (Utf8.withoutMark file.body) = some file.text := by
  have hencode : Utf8.encode file.text = some (file.text.flatMap Utf8.bytesOf) := if_pos (encodable_text file)
  rw [SubtitleFile.body]
  cases file.marked with
  | true => exact Utf8.decode_encode hencode
  | false =>
    have hmark : [0xef, 0xbb, 0xbf].isPrefixOf (file.text.flatMap Utf8.bytesOf) = false := by
      cases htext : file.text with
      | nil => rfl
      | cons c rest =>
        have hascii : c.val < 0x80 := ascii_text (by rw [htext]; rfl)
        have hbyte : UInt8.ofNat c.val ≠ 0xef := by
          intro heq
          have hval := congrArg UInt8.toNat heq
          rw [Utf8.toNat_ofNat (by omega)] at hval
          rw [hval] at hascii
          exact absurd hascii (by decide)
        have hbytes : Utf8.bytesOf c = [UInt8.ofNat c.val] := by
          rw [Utf8.bytesOf]
          exact if_pos hascii
        rw [List.flatMap_cons, hbytes, List.singleton_append, List.isPrefixOf_cons_cons, beq_eq_false_iff_ne.mpr (Ne.symm hbyte),
          Bool.false_and]
    rw [if_neg Bool.false_ne_true, List.nil_append, Utf8.withoutMark, hmark, if_neg Bool.false_ne_true]
    exact Utf8.decode_encode hencode

/-! ### What is returned -/

theorem tidy_sublist (line : Text) : List.Sublist (tidy line) (clean line) := by
  have hstart : List.Sublist ((clean line).dropWhile isSpace) (clean line) := List.dropWhile_sublist _
  have hend := (List.dropWhile_sublist isSpace (l := ((clean line).dropWhile isSpace).reverse)).reverse
  rw [List.reverse_reverse] at hend
  exact hend.trans hstart

theorem clean_tidy (line : Text) : ∀ c ∈ tidy line, isControl c = false := by
  intro c hc
  have hclean := (List.mem_filter.mp ((tidy_sublist line).subset hc)).2
  rwa [Bool.not_eq_true'] at hclean

theorem utf8Length_sublist {a b : Text} (h : List.Sublist a b) : Text.utf8Length a ≤ Text.utf8Length b :=
  (h.map _).sum_le_sum fun _ _ => Nat.zero_le _

theorem utf8Length_tidy (line : Text) : Text.utf8Length (tidy line) ≤ Text.utf8Length line :=
  utf8Length_sublist ((tidy_sublist line).trans (List.filter_sublist))

theorem utf8Length_append (a b : Text) : Text.utf8Length (a ++ b) = Text.utf8Length a + Text.utf8Length b := by
  rw [Text.utf8Length, List.map_append, List.sum_append]
  rfl

/-- What lines take, each with its end. -/
def linesSize (lines : List Text) : Nat := (lines.map fun line => Text.utf8Length line + 1).sum

theorem linesSize_cons (line : Text) (lines : List Text) : linesSize (line :: lines) = Text.utf8Length line + 1 + linesSize lines := rfl

theorem linesSize_nil : linesSize [] = 0 := rfl

theorem utf8Length_cons (c : CodePoint) (s : Text) : Text.utf8Length (c :: s) = c.utf8Size + Text.utf8Length s := rfl

theorem utf8Length_nil : Text.utf8Length [] = 0 := rfl

/-- Every end of a line takes a byte at least. -/
theorem linesSize_splitFrom (cur rest : Text) : linesSize (splitFrom cur rest) ≤ Text.utf8Length cur + Text.utf8Length rest + 1 := by
  fun_induction splitFrom cur rest with
  | case1 => exact Nat.zero_le _
  | case2 cur => simp only [linesSize_cons, linesSize_nil, utf8Length_nil]; omega
  | case3 cur c =>
    have := c.utf8Size_pos
    simp only [linesSize_cons, linesSize_nil, utf8Length_cons, utf8Length_nil]
    omega
  | case4 cur c =>
    simp only [linesSize_cons, linesSize_nil, utf8Length_append, utf8Length_cons, utf8Length_nil]
    omega
  | case5 cur c d rest _ ih =>
    have := c.utf8Size_pos
    simp only [linesSize_cons, utf8Length_cons, utf8Length_nil] at ih ⊢
    omega
  | case6 cur c d rest _ _ ih =>
    have := c.utf8Size_pos
    simp only [linesSize_cons, utf8Length_cons, utf8Length_nil] at ih ⊢
    omega
  | case7 cur c d rest _ _ ih =>
    simp only [utf8Length_append, utf8Length_cons, utf8Length_nil] at ih ⊢
    omega

theorem utf8Length_joinLines (lines : List Text) : Text.utf8Length (joinLines lines) ≤ linesSize lines - 1 := by
  have hfeed : Text.utf8Length [lineFeed] = 1 := by decide
  match lines with
  | [] => exact Nat.le_refl _
  | [line] =>
    rw [joinLines, List.intercalate_singleton, linesSize_cons, linesSize_nil]
    exact Nat.le_refl _
  | line :: next :: rest =>
    have ih := utf8Length_joinLines (next :: rest)
    have hnext : 1 ≤ linesSize (next :: rest) := by
      rw [linesSize_cons]
      omega
    rw [joinLines, List.intercalate_cons_cons, utf8Length_append, utf8Length_append, hfeed, linesSize_cons]
    rw [joinLines] at ih
    omega

theorem linesSize_sublist {a b : List Text} (h : List.Sublist a b) : linesSize a ≤ linesSize b :=
  (h.map _).sum_le_sum fun _ _ => Nat.zero_le _

theorem linesSize_tidy (lines : List Text) : linesSize (lines.map tidy) ≤ linesSize lines := by
  induction lines with
  | nil => exact Nat.le_refl _
  | cons line lines ih =>
    have := utf8Length_tidy line
    rw [List.map_cons, linesSize_cons, linesSize_cons]
    omega

theorem mem_splitFrom {cur rest piece : Text} (h : piece ∈ splitFrom cur rest) {c : CodePoint} (hc : c ∈ piece) : c ∈ cur ++ rest := by
  fun_induction splitFrom cur rest with
  | case1 => cases h
  | case2 cur => rwa [List.mem_singleton.mp h, ← List.append_nil cur] at hc
  | case3 cur d => exact List.mem_append_left _ (List.mem_singleton.mp h ▸ hc)
  | case4 cur d => rwa [List.mem_singleton.mp h] at hc
  | case5 cur d e rest _ ih => grind
  | case6 cur d e rest _ _ ih => grind
  | case7 cur d e rest _ _ ih => grind

/-- **What is returned is never cut**, for it is no longer than the file. -/
theorem parseSubtitleText_eq {body : List UInt8} {text : Text} {maximum : Nat}
    (hdecode : Utf8.decode (Utf8.withoutMark body) = some text) (hencodable : Text.encodable text = true)
    (hlength : Text.utf8Length text ≤ body.length) (hbody : body.length ≤ maximum) :
    let s := (splitlines text).foldl (subtitleTurn t) {}
    parseSubtitleText t body maximum =
      if joinLines s.output = [] then .error (.execution "subtitle artifact contains no transcript text")
      else .ok (joinLines s.output, s.locators.take maximumLocators) := by
  intro s
  have houtput : s.output = ((splitlines text).map tidy).filter (lineKind t · = .words) := output_foldl _ _
  have htidy : ∀ line ∈ s.output, ∃ piece ∈ splitlines text, tidy piece = line := by
    intro line hline
    rw [houtput] at hline
    exact List.mem_map.mp (List.mem_filter.mp hline).1
  have hclean : clean (joinLines s.output) = joinLines s.output := by
    refine List.filter_eq_self.mpr fun c hc => ?_
    rw [Bool.not_eq_true']
    obtain hc | ⟨line, hline, hc⟩ := Lists.mem_intercalate hc
    · rw [List.mem_singleton.mp hc]
      rfl
    · obtain ⟨piece, -, rfl⟩ := htidy line hline
      exact clean_tidy piece c hc
  have hencode : Text.encodable (joinLines s.output) = true := by
    rw [Text.encodable, List.all_eq_true] at hencodable ⊢
    intro c hc
    obtain hc | ⟨line, hline, hc⟩ := Lists.mem_intercalate hc
    · rw [List.mem_singleton.mp hc]
      rfl
    · obtain ⟨piece, hpiece, rfl⟩ := htidy line hline
      exact hencodable c (mem_splitFrom hpiece (List.filter_sublist.subset ((tidy_sublist piece).subset hc)))
  have hsize : Text.utf8Length (joinLines s.output) ≤ maximum := by
    have hjoin := utf8Length_joinLines s.output
    have hkept : linesSize s.output ≤ linesSize ((splitlines text).map tidy) := by
      rw [houtput]
      exact linesSize_sublist List.filter_sublist
    have htidied := linesSize_tidy (splitlines text)
    have hsplit := linesSize_splitFrom [] text
    rw [utf8Length_nil, ← splitlines] at hsplit
    omega
  have hbounded : boundedText (joinLines s.output) maximum = .ok (joinLines s.output) := by
    have hbytes : Utf8.encode (joinLines s.output) = some ((joinLines s.output).flatMap Utf8.bytesOf) := if_pos hencode
    have hfits : ((joinLines s.output).flatMap Utf8.bytesOf).length ≤ maximum := by
      rw [Utf8.length_encode hbytes]
      exact hsize
    rw [boundedText, hclean, hbytes]
    exact congrArg Except.ok (if_pos hfits)
  have hrequire : (require (decide (body.length ≤ maximum)) (.execution "subtitle text exceeded the configured byte bound") :
      Except MediaError Unit) = .ok () := by
    rw [decide_eq_true hbody]
    rfl
  rw [parseSubtitleText, hrequire, hdecode]
  show (do
    require (!(joinLines s.output).isEmpty) (.execution "subtitle artifact contains no transcript text")
    let bounded ← boundedText (joinLines s.output) maximum
    return (bounded, s.locators.take maximumLocators) : Except MediaError _) = _
  rw [hbounded]
  cases joinLines s.output with
  | nil => rfl
  | cons c rest => rfl

/-! ### What is read of a file -/

theorem length_body (file : SubtitleFile) : Text.utf8Length file.text ≤ file.body.length := by
  have hencode : Utf8.encode file.text = some (file.text.flatMap Utf8.bytesOf) := if_pos (encodable_text file)
  rw [← Utf8.length_encode hencode, SubtitleFile.body, List.length_append]
  omega

/-- The variables of the loop, at its end. -/
def SubtitleFile.final (t : DigitTables) (file : SubtitleFile) : SubtitleState :=
  file.parts.flatten.foldl (fun s line => effect t s line.text) {}

theorem foldl_blanks (parts : List (List FileLine)) (s : SubtitleState) :
    ([FileLine.blank].intercalate parts).foldl (fun s line => effect t s line.text) s =
      parts.flatten.foldl (fun s line => effect t s line.text) s := by
  induction parts generalizing s with
  | nil => rfl
  | cons part parts ih =>
    cases parts with
    | nil => rw [List.intercalate_singleton, List.flatten_singleton]
    | cons next rest =>
      rw [List.intercalate_cons_cons, List.foldl_append, List.foldl_append, List.flatten_cons, List.foldl_append]
      exact ih _

theorem final_eq (file : SubtitleFile) : (splitlines file.text).foldl (subtitleTurn t) {} = file.final t := by
  have hlines : ∀ line ∈ file.lines.map FileLine.text, lineFeed ∉ line ∧ carriageReturn ∉ line := by
    intro line hline
    obtain ⟨fileLine, hfileLine, rfl⟩ := List.mem_map.mp hline
    exact (proper_lines hfileLine).oneLine
  rw [SubtitleFile.text, foldl_text file.newline hlines, List.foldl_map]
  exact foldl_blanks file.parts {}

theorem output_lines (lines : List FileLine) (s : SubtitleState) :
    (lines.foldl (fun s line => effect t s line.text) s).output = s.output ++ lines.flatMap (wordsOf t ·.text) := by
  induction lines generalizing s with
  | nil => rw [List.foldl_nil, List.flatMap_nil, List.append_nil]
  | cons line lines ih => rw [List.foldl_cons, ih, output_effect, List.append_assoc, List.flatMap_cons]

theorem cueIndex_lines (lines : List FileLine) (s : SubtitleState) :
    (lines.foldl (fun s line => effect t s line.text) s).cueIndex = s.cueIndex + (lines.map (timingsOf t ·.text)).sum := by
  induction lines generalizing s with
  | nil => rfl
  | cons line lines ih =>
    rw [List.foldl_cons, ih, cueIndex_effect, List.map_cons, List.sum_cons]
    omega

theorem output_final (file : SubtitleFile) : (file.final t).output = file.words t := output_lines _ _

theorem cueIndex_final (file : SubtitleFile) : (file.final t).cueIndex = file.timings t := (cueIndex_lines _ _).trans (Nat.zero_add _)

/-- What the parser does with a file. -/
theorem parse_file (file : SubtitleFile) {maximum : Nat} (hbody : file.body.length ≤ maximum) :
    parseSubtitleText t file.body maximum =
      if joinLines (file.words t) = [] then .error (.execution "subtitle artifact contains no transcript text")
      else .ok (joinLines (file.words t), (file.final t).locators.take maximumLocators) := by
  have hall := parseSubtitleText_eq (t := t) (decode_body file) (encodable_text file) (length_body file) hbody
  rw [final_eq] at hall
  rw [hall, output_final]

/-! ### The lines of cues among the others -/

def FileLine.payloads : FileLine → List Text
  | .payload line => [line]
  | _ => []

def FileLine.timed : FileLine → List Cue
  | .timing c => [c]
  | _ => []

theorem flatMap_none (g : FileLine → List α) {lines : List FileLine} (h : ∀ line ∈ lines, g line = []) : lines.flatMap g = [] :=
  List.flatMap_eq_nil_iff.mpr h

theorem flatMap_block (g : FileLine → List α) (h : ∀ line, g (.other line) = []) (block : FileBlock) :
    block.lines.flatMap g = block.cues.flatMap fun c => c.fileLines.flatMap g := by
  cases block with
  | nothing => rfl
  | cue c => exact (List.append_nil _).symm
  | comment c =>
    refine flatMap_none g fun line hline => ?_
    obtain rfl | hline := List.mem_cons.mp hline
    · exact h _
    · obtain ⟨other, -, rfl⟩ := List.mem_map.mp hline
      exact h other

theorem flatMap_parts (g : FileLine → List α) (h : ∀ line, g (.other line) = []) (file : SubtitleFile) :
    file.parts.flatten.flatMap g = file.cues.flatMap fun c => c.fileLines.flatMap g := by
  have hheader : (file.header.toList.map fun rest => [FileLine.other (webvtt ++ rest)]).flatten.flatMap g = [] := by
    cases file.header with
    | none => rfl
    | some rest =>
      show g _ ++ [] = []
      rw [h, List.append_nil]
  rw [SubtitleFile.parts, List.flatten_append, List.flatMap_append, hheader, List.nil_append, SubtitleFile.cues, List.flatMap_assoc]
  induction file.blocks with
  | nil => rfl
  | cons block blocks ih => rw [List.map_cons, List.flatten_cons, List.flatMap_append, ih, flatMap_block g h, List.flatMap_cons]

theorem payload_eq (file : SubtitleFile) : file.parts.flatten.flatMap FileLine.payloads = file.payload := by
  rw [flatMap_parts _ fun _ => rfl, SubtitleFile.payload]
  refine List.flatMap_congr fun c _ => ?_
  have hnumber : (c.identifier.toList.map FileLine.number).flatMap FileLine.payloads = [] := by
    cases c.identifier <;> rfl
  rw [Cue.fileLines, List.flatMap_append, hnumber, List.flatMap_cons, List.flatMap_map]
  exact List.flatMap_singleton' _

theorem cues_eq (file : SubtitleFile) : file.parts.flatten.flatMap FileLine.timed = file.cues := by
  rw [flatMap_parts _ fun _ => rfl]
  have hcue : ∀ c : Cue, c.fileLines.flatMap FileLine.timed = [c] := by
    intro c
    have hnumber : (c.identifier.toList.map FileLine.number).flatMap FileLine.timed = [] := by
      cases c.identifier <;> rfl
    have hlines : (c.payload.map FileLine.payload).flatMap FileLine.timed = [] := by
      rw [List.flatMap_map]
      exact List.flatMap_eq_nil_iff.mpr fun _ _ => rfl
    rw [Cue.fileLines, List.flatMap_append, hnumber, List.flatMap_cons, hlines]
    rfl
  simp only [hcue]
  exact List.flatMap_singleton' _

theorem wordsOf_number {digits : Text} (h : JsonText.Digits digits) : wordsOf t digits = [] ∧ timingsOf t digits = 0 := by
  obtain ⟨hsplit, hkind⟩ := kind_number (t := t) h
  rw [wordsOf, timingsOf, hsplit, List.map_singleton]
  simp [hkind]

theorem timed_le (line : FileLine) : line.timed.length ≤ timingsOf t line.text := by
  cases line with
  | timing c =>
    obtain ⟨piece, more, hsplit, hkind⟩ := timing_pieces (t := t) c
    show 1 ≤ timingsOf t c.timing
    rw [timingsOf, hsplit, List.map_cons, List.countP_cons, hkind]
    simp
  | _ => exact Nat.zero_le _

/-- Each cue has its timing. -/
theorem cues_le_timings (file : SubtitleFile) : file.cues.length ≤ file.timings t := by
  rw [← cues_eq, List.length_flatMap]
  exact List.sum_le_sum fun line _ => timed_le line

theorem number_digits {file : SubtitleFile} {digits : Text} (h : .number digits ∈ file.parts.flatten) : JsonText.Digits digits := by
  obtain ⟨part, hpart, hline⟩ := List.mem_flatten.mp h
  obtain hpart | hpart := List.mem_append.mp hpart
  · obtain ⟨rest, -, rfl⟩ := List.mem_map.mp hpart
    cases List.mem_singleton.mp hline
  · obtain ⟨block, -, rfl⟩ := List.mem_map.mp hpart
    cases block with
    | nothing => cases hline
    | comment c =>
      obtain hline | hline := List.mem_cons.mp hline
      · cases hline
      · obtain ⟨other, -, hother⟩ := List.mem_map.mp hline
        cases hother
    | cue c =>
      obtain hline | hline := List.mem_append.mp hline
      · obtain ⟨digits', hdigits, hnumber⟩ := List.mem_map.mp hline
        cases hnumber
        exact c.isNumber digits (Option.mem_toList.mp hdigits)
      · obtain hline | hline := List.mem_cons.mp hline
        · cases hline
        · obtain ⟨words, -, hwords⟩ := List.mem_map.mp hline
          cases hwords

/-- A line of a file is passed over, or is a cue's, or is one of the others. -/
theorem line_cases {file : SubtitleFile} {line : FileLine} (h : line ∈ file.parts.flatten) :
    (line.payloads = [] ∧ wordsOf t line.text = []) ∨ (∃ words ∈ file.payload, line = .payload words) ∨
      line.payloads = [] ∧ line.text ∈ file.others := by
  have hother : line.text ∈ line.others → line.text ∈ file.others := fun hmem => List.mem_flatMap.mpr ⟨line, h, hmem⟩
  have hpayload : ∀ words ∈ line.payloads, words ∈ file.payload := by
    intro words hwords
    rw [← payload_eq]
    exact List.mem_flatMap.mpr ⟨line, h, hwords⟩
  cases line with
  | blank => exact .inl ⟨rfl, rfl⟩
  | number digits => exact .inl ⟨rfl, (wordsOf_number (number_digits h)).1⟩
  | payload words => exact .inr (.inl ⟨words, hpayload words List.mem_cons_self, rfl⟩)
  | timing c => exact .inr (.inr ⟨rfl, hother List.mem_cons_self⟩)
  | other words => exact .inr (.inr ⟨rfl, hother List.mem_cons_self⟩)

theorem Keeps.words {file : SubtitleFile} (h : Keeps t file) : file.words t = file.payload.map tidy := by
  have hline : ∀ line ∈ file.parts.flatten, wordsOf t line.text = line.payloads.map tidy := by
    intro line hline
    obtain ⟨hnone, hwords⟩ | ⟨words, hmem, rfl⟩ | ⟨hnone, hother⟩ := line_cases (t := t) hline
    · rw [hnone, hwords, List.map_nil]
    · exact h.payload words hmem
    · rw [hnone, h.others _ hother, List.map_nil]
  rw [SubtitleFile.words, List.flatMap_congr hline, ← payload_eq, List.map_flatMap]

theorem tracked_lines {lines : List FileLine} {s : SubtitleState} (h : Tracked s)
    (hwords : 0 < s.cueIndex ∨ ∀ line ∈ lines, wordsOf t line.text = []) :
    Tracked (lines.foldl (fun s line => effect t s line.text) s) := by
  induction lines generalizing s with
  | nil => exact h
  | cons line lines ih =>
    refine ih (h.effect (hwords.imp_right fun hall => hall line List.mem_cons_self)) ?_
    refine hwords.imp (fun hpos => ?_) fun hall other hother => hall other (List.mem_cons_of_mem _ hother)
    rw [cueIndex_effect]
    omega

/-- In a cue the times come first. -/
theorem tracked_cue {c : Cue} (htiming : wordsOf t c.timing = []) {s : SubtitleState} (h : Tracked s) :
    Tracked (c.fileLines.foldl (fun s line => effect t s line.text) s) := by
  rw [Cue.fileLines, List.foldl_append, List.foldl_cons]
  have hnumber : Tracked ((c.identifier.toList.map FileLine.number).foldl (fun s line => effect t s line.text) s) := by
    refine tracked_lines h (.inr fun line hline => ?_)
    obtain ⟨digits, hdigits, rfl⟩ := List.mem_map.mp hline
    exact (wordsOf_number (c.isNumber digits (Option.mem_toList.mp hdigits))).1
  refine tracked_lines (hnumber.effect (.inr htiming)) (.inl ?_)
  have htimed : 1 ≤ timingsOf t c.timing := timed_le (.timing c)
  rw [cueIndex_effect]
  exact Nat.lt_of_lt_of_le htimed (Nat.le_add_left _ _)

theorem Keeps.tracked {file : SubtitleFile} (h : Keeps t file) : Tracked (file.final t) := by
  have hpart : ∀ part ∈ file.parts, ∀ s, Tracked s → Tracked (part.foldl (fun s line => effect t s line.text) s) := by
    intro part hpart s hs
    have hothers : ∀ line ∈ part, ∀ words ∈ line.others, wordsOf t words = [] := fun line hline words hwords =>
      h.others words (List.mem_flatMap.mpr ⟨line, List.mem_flatten.mpr ⟨part, hpart, hline⟩, hwords⟩)
    have hall : (∀ line ∈ part, line.text ∈ line.others) → Tracked (part.foldl (fun s line => effect t s line.text) s) :=
      fun hother => tracked_lines hs (.inr fun line hline => hothers line hline _ (hother line hline))
    obtain hheader | hblock := List.mem_append.mp hpart
    · obtain ⟨rest, -, rfl⟩ := List.mem_map.mp hheader
      exact hall (List.forall_mem_singleton.mpr List.mem_cons_self)
    · obtain ⟨block, -, rfl⟩ := List.mem_map.mp hblock
      cases block with
      | nothing => exact hs
      | comment c =>
        refine hall (List.forall_mem_cons.mpr ⟨List.mem_cons_self, ?_⟩)
        exact List.forall_mem_map.mpr fun _ _ => List.mem_cons_self
      | cue c =>
        have hmem : FileLine.timing c ∈ c.fileLines := List.mem_append_right _ List.mem_cons_self
        exact tracked_cue (hothers _ hmem _ List.mem_cons_self) hs
  suffices hparts : ∀ parts : List (List FileLine),
      (∀ part ∈ parts, ∀ s, Tracked s → Tracked (part.foldl (fun s line => effect t s line.text) s)) →
      ∀ s, Tracked s → Tracked (parts.flatten.foldl (fun s line => effect t s line.text) s) from
    hparts file.parts hpart {} ⟨rfl, nofun⟩
  intro parts
  induction parts with
  | nil => exact fun _ s hs => hs
  | cons part parts ih =>
    intro hparts s hs
    obtain ⟨hpart, hparts⟩ := List.forall_mem_cons.mp hparts
    rw [List.flatten_cons, List.foldl_append]
    exact ih hparts _ (hpart s hs)

theorem Keeps.locators {file : SubtitleFile} (h : Keeps t file) :
    ((file.final t).locators.take maximumLocators = (List.range file.cues.length).map fun i => cueLocator (i + 1)) ↔
      file.cues.length ≤ maximumLocators ∧ (file.cues.length = maximumLocators ∨ file.timings t = file.cues.length) := by
  have hle := cues_le_timings (t := t) file
  rw [h.tracked.locators, cueIndex_final, ← List.map_take, List.take_range]
  constructor
  · intro heq
    have hlength := congrArg List.length heq
    rw [List.length_map, List.length_map, List.length_range, List.length_range] at hlength
    omega
  · intro hcues
    have hmin : min maximumLocators (file.timings t) = file.cues.length := by omega
    rw [hmin]

theorem joinLines_eq_nil {lines : List Text} (h : ∀ line ∈ lines, line ≠ []) : joinLines lines = [] ↔ lines = [] := by
  match lines with
  | [] => exact iff_of_true rfl rfl
  | [line] =>
    rw [joinLines, List.intercalate_singleton]
    exact iff_of_false (h line List.mem_cons_self) (List.cons_ne_nil _ _)
  | line :: next :: rest =>
    rw [joinLines, List.intercalate_cons_cons, List.append_assoc]
    exact iff_of_false (List.append_ne_nil_of_left_ne_nil (h line List.mem_cons_self) _) (List.cons_ne_nil _ _)

/-- Lines are read back from what they were joined to. -/
theorem joinLines_injective {a b : List Text} (ha : ∀ line ∈ a, lineFeed ∉ line) (hb : ∀ line ∈ b, lineFeed ∉ line)
    (hne : a ≠ []) (hne' : b ≠ []) (h : joinLines a = joinLines b) : a = b := by
  rw [← List.splitOn_intercalate lineFeed ha hne, ← List.splitOn_intercalate lineFeed hb hne']
  exact congrArg (List.splitOn lineFeed) h

/-- What is kept is not empty, for it is taken for words. -/
theorem mem_words {file : SubtitleFile} {line : Text} (h : line ∈ file.words t) : lineKind t line = .words := by
  obtain ⟨fileLine, -, h⟩ := List.mem_flatMap.mp h
  exact of_decide_eq_true (List.mem_filter.mp h).2

theorem words_ne_nil {line : Text} (h : lineKind t line = .words) : line ≠ [] := by
  intro hnil
  rw [hnil] at h
  cases h

theorem words_oneLine {file : SubtitleFile} {line : Text} (h : line ∈ file.words t) : lineFeed ∉ line := by
  obtain ⟨fileLine, hline, h⟩ := List.mem_flatMap.mp h
  obtain ⟨piece, hpiece, rfl⟩ := List.mem_map.mp (List.mem_filter.mp h).1
  obtain ⟨part, hpart, hline⟩ := List.mem_flatten.mp hline
  intro hmem
  have hclean := List.filter_sublist.subset ((tidy_sublist piece).subset hmem)
  exact (proper_parts hpart hline).oneLine.1 (mem_splitFrom hpiece hclean)

/-- A line of a cue is a line. -/
theorem payload_isLine {file : SubtitleFile} {line : Text} (h : line ∈ file.payload) : line ≠ [] ∧ IsLine line := by
  obtain ⟨c, -, hline⟩ := List.mem_flatMap.mp h
  exact ⟨c.nonempty line hline, c.lines line hline⟩

theorem payload_oneLine {file : SubtitleFile} : ∀ line ∈ file.payload.map tidy, lineFeed ∉ line := by
  intro line hline hmem
  obtain ⟨words, hwords, rfl⟩ := List.mem_map.mp hline
  exact (payload_isLine hwords).2.oneLine.1 (List.filter_sublist.subset ((tidy_sublist words).subset hmem))

/-- What holds no boundary is one line to the parser. -/
theorem wordsOf_unbroken {line : Text} (hline : line ≠ [] ∧ IsLine line) (h : ∀ c ∈ line, isOtherBreak c = false)
    (hkind : lineKind t (tidy line) = .words) : wordsOf t line = [tidy line] := by
  have hbreak : ∀ c ∈ line, isBreak c = false := by
    intro c hc
    have hfeed : c ≠ lineFeed := fun heq => hline.2.oneLine.1 (heq ▸ hc)
    have hreturn : c ≠ carriageReturn := fun heq => hline.2.oneLine.2 (heq ▸ hc)
    rw [isBreak, decide_eq_false hfeed, decide_eq_false hreturn, h c hc]
    rfl
  rw [wordsOf, splitlines_unbroken hline.1 hbreak, List.map_singleton, List.filter_cons, hkind]
  rfl

/-- If nothing is kept but the lines of the cues, nothing is kept of the others. -/
theorem others_nil {file : SubtitleFile} (hpayload : ∀ line ∈ file.payload, wordsOf t line = [tidy line])
    (hwords : file.words t = file.payload.map tidy) : ∀ line ∈ file.others, wordsOf t line = [] := by
  have hle : ∀ line ∈ file.parts.flatten, line.payloads.length ≤ (wordsOf t line.text).length := by
    intro line hline
    obtain ⟨hnone, -⟩ | ⟨words, hmem, rfl⟩ | ⟨hnone, -⟩ := line_cases (t := t) hline
    · rw [hnone]
      exact Nat.zero_le _
    · exact (congrArg List.length (hpayload words hmem)).ge
    · rw [hnone]
      exact Nat.zero_le _
  have hsum : (file.parts.flatten.map fun line => line.payloads.length).sum =
      (file.parts.flatten.map fun line => (wordsOf t line.text).length).sum := by
    rw [← List.length_flatMap, ← List.length_flatMap, payload_eq, ← SubtitleFile.words, hwords, List.length_map]
  intro words hmem
  obtain ⟨line, hline, hother⟩ := List.mem_flatMap.mp hmem
  have hnone : line.payloads = [] ∧ line.text = words := by
    cases line with
    | timing c => exact ⟨rfl, (List.mem_singleton.mp hother).symm⟩
    | other text => exact ⟨rfl, (List.mem_singleton.mp hother).symm⟩
    | blank => cases hother
    | number digits => cases hother
    | payload text => cases hother
  by_contra hne
  have hlt : line.payloads.length < (wordsOf t line.text).length := by
    rw [hnone.1, hnone.2]
    exact List.length_pos_of_ne_nil hne
  exact absurd hsum (List.sum_lt_sum _ _ hle ⟨line, hline, hlt⟩).ne

theorem Clear.parses {file : SubtitleFile} (h : Clear t file) : Parses t file := by
  intro maximum hbody
  have hne : joinLines (file.words t) ≠ [] := by
    rw [Ne, joinLines_eq_nil fun line hline => words_ne_nil (mem_words hline), h.toKeeps.words, List.map_eq_nil_iff]
    exact h.hasText
  rw [parse_file file hbody, if_neg hne, h.toKeeps.words, h.toKeeps.locators.mpr ⟨h.cues, h.timings⟩]

theorem Parses.clear {file : SubtitleFile} (h : Parses t file) (hunbroken : Unbroken file) : Clear t file := by
  have hparse := h _ (Nat.le_refl _)
  rw [parse_file file (Nat.le_refl _)] at hparse
  split at hparse
  · cases hparse
  · rename_i hne
    obtain ⟨hjoin, hlocators⟩ := Prod.mk.inj (Except.ok.inj hparse)
    have hwords : file.words t = file.payload.map tidy := by
      refine joinLines_injective (fun line hline => words_oneLine hline) payload_oneLine ?_ ?_ hjoin
      · exact fun hnil => hne (by rw [hnil]; rfl)
      · exact fun hnil => hne (by rw [hjoin, hnil]; rfl)
    have hpayload : ∀ line ∈ file.payload, wordsOf t line = [tidy line] := by
      intro line hline
      have hkind : lineKind t (tidy line) = .words := mem_words (by rw [hwords]; exact List.mem_map_of_mem hline)
      exact wordsOf_unbroken (payload_isLine hline) (hunbroken line hline) hkind
    have hkeeps : Keeps t file := ⟨hpayload, others_nil hpayload hwords⟩
    obtain ⟨hcues, htimings⟩ := hkeeps.locators.mp hlocators
    exact ⟨hkeeps, fun hnil => hne (by rw [hjoin, hnil]; rfl), hcues, htimings⟩

end

/-- The digits of ASCII alone. -/
def DigitTables.plain : DigitTables := ⟨JsonText.isDigit, JsonText.isDigit, fun _ _ => ⟨rfl, rfl⟩⟩

/-- A WebVTT file of a comment and a cue, with an identifier and settings. -/
def spoken : SubtitleFile where
  header := some []
  isHeader _ hrest := by
    cases hrest
    exact ⟨nofun, by decide, by decide, by decide⟩
  blocks := [
    .comment {
      kind := .note
      rest := Text.ofString " reviewed"
      separated := fun _ hc => .inl (Option.some.inj hc).symm
      first := ⟨by decide, by decide, by decide⟩
      lines := []
      nonempty := nofun
      isLine := nofun },
    .cue {
      identifier := some (Text.ofString "7")
      isNumber := fun _ hdigits => by
        cases hdigits
        exact ⟨by decide, List.forall_mem_singleton.mpr (by decide)⟩
      start := ⟨some 0, 0, 1, 0, false⟩
      stop := ⟨some 0, 0, 2, 500, false⟩
      before := [0x20]
      after := [0x20]
      gaps := List.forall_mem_cons.mpr ⟨.inl rfl, List.forall_mem_singleton.mpr (.inl rfl)⟩
      settings := Text.ofString " align:start"
      separated := fun _ hc => .inl (Option.some.inj hc).symm
      isLine := ⟨by decide, by decide, by decide⟩
      payload := [Text.ofString " Hello,", Text.ofString "world."]
      nonempty := by decide
      lines := List.forall_mem_cons.mpr ⟨⟨by decide, by decide, by decide⟩,
        List.forall_mem_singleton.mpr ⟨by decide, by decide, by decide⟩⟩ }]
  newline := .crlf
  terminated := true
  marked := true

/-- A file of which every line is taken for what it is parses to its lines and one locator for each cue; and
if the lines of its cues hold no boundary of lines, no other file does. -/
theorem parses_clear (t : DigitTables) (file : SubtitleFile) :
    (Clear t file → Parses t file) ∧ (Unbroken file → (Parses t file ↔ Clear t file)) :=
  ⟨Clear.parses, fun hunbroken => ⟨fun h => h.clear hunbroken, Clear.parses⟩⟩

theorem spoken_parses : parseSubtitleText .plain spoken.body 1000 =
    .ok (joinLines [Text.ofString "Hello,", Text.ofString "world."], [Text.ofString "cue:1"]) := by
  have hcues : spoken.cues.length = 1 := rfl
  have hclear : Clear .plain spoken :=
    ⟨⟨by decide, by decide⟩, by decide, by rw [hcues, maximumLocators]; omega, .inr (by rw [hcues]; decide)⟩
  exact (parses_clear .plain spoken).1 hclear 1000 (by decide)

/-- A WebVTT file of a comment of two lines and a cue that says a number. -/
def commented : SubtitleFile where
  header := some []
  isHeader _ hrest := by
    cases hrest
    exact ⟨nofun, by decide, by decide, by decide⟩
  blocks := [
    .comment {
      kind := .note
      rest := []
      separated := nofun
      first := ⟨by decide, by decide, by decide⟩
      lines := [Text.ofString "draft"]
      nonempty := by decide
      isLine := List.forall_mem_singleton.mpr ⟨by decide, by decide, by decide⟩ },
    .cue {
      identifier := none
      isNumber := nofun
      start := ⟨none, 0, 1, 0, false⟩
      stop := ⟨none, 0, 2, 0, false⟩
      before := [0x20]
      after := [0x20]
      gaps := List.forall_mem_cons.mpr ⟨.inl rfl, List.forall_mem_singleton.mpr (.inl rfl)⟩
      settings := []
      separated := nofun
      isLine := ⟨by decide, by decide, by decide⟩
      payload := [Text.ofString "42"]
      nonempty := by decide
      lines := List.forall_mem_singleton.mpr ⟨by decide, by decide, by decide⟩ }]
  newline := .lf
  terminated := true
  marked := false

/-- The number is dropped and the comment is kept, with a locator of its own. -/
theorem comment_kept : parseSubtitleText .plain commented.body 1000 =
      .ok (Text.ofString "draft", [Text.ofString "cue:1", Text.ofString "cue:1"]) ∧
    ¬ Parses .plain commented := by
  have hparse : parseSubtitleText .plain commented.body 1000 =
      .ok (Text.ofString "draft", [Text.ofString "cue:1", Text.ofString "cue:1"]) := by
    rw [parse_file commented (by decide)]
    decide
  refine ⟨hparse, fun h => ?_⟩
  have heq := (hparse.symm.trans (h 1000 (by decide)))
  exact absurd heq (by decide)

end Fetech.Media
