import Fetech.Lib.JsonReader
import Mathlib.Data.List.TakeWhile

/-! What `json.dumps` wrote is what `json.loads` reads.

Each part of a text is read back up to what may follow it: a string to its closing quote, a number
to the comma or bracket that ends it, what stands in brackets to the closing one. So a value that
was written is read back (`readValue_write`), with its keys sorted if they were (`loads_dumps`). -/
namespace Lib.JsonText

variable {φ : Type} (f : Floats φ)

/-! ### Strings are read back -/

theorem hexValue?_hexDigit {n : Nat} (h : n < 16) : hexValue? (hexDigit n) = some n := by
  unfold hexDigit hexValue? isDigit
  split
  · have hval : (Fin.ofNat 0x110000 (0x30 + n)).val = 0x30 + n := Nat.mod_eq_of_lt (by omega)
    rw [hval, if_pos (by simp; omega)]
    simp
  · have hval : (Fin.ofNat 0x110000 (0x57 + n)).val = 0x57 + n := Nat.mod_eq_of_lt (by omega)
    rw [hval, if_neg (by simp; omega), if_pos (by omega)]
    simp
theorem unit?_hexDigits {n : Nat} (h : n < 0x10000) :
    unit? (hexDigit (n / 4096 % 16)) (hexDigit (n / 256 % 16)) (hexDigit (n / 16 % 16)) (hexDigit (n % 16)) = some n := by
  unfold unit?
  rw [hexValue?_hexDigit (Nat.mod_lt _ (by decide)), hexValue?_hexDigit (Nat.mod_lt _ (by decide)),
    hexValue?_hexDigit (Nat.mod_lt _ (by decide)), hexValue?_hexDigit (Nat.mod_lt _ (by decide))]
  simp only [Option.bind_eq_bind, Option.bind_some, Option.pure_def, Option.some.injEq]
  omega

theorem letters_read : ∀ pair ∈ letters, pair.2 ≠ letterU ∧ letterValue? pair.2 = some pair.1 := by
  simp [letters, letterU, letterValue?]

theorem not_letter : ∀ c, letters.lookup c = none → c ≠ quote ∧ c ≠ backslash := by
  intro c hc
  constructor
  · intro heq
    rw [heq] at hc
    cases hc
  · intro heq
    rw [heq] at hc
    cases hc

/-- A code unit that is no surrogate is a character of its own. -/
theorem readString_unitEscape {n : Nat} (h : n < 0x10000) (hhigh : isHigh n = false) (rest : Text) :
    readString (unitEscape n ++ rest) = put (Fin.ofNat 0x110000 n) (readString rest) := by
  have hquote : ¬ backslash = quote := by decide
  simp only [unitEscape, List.cons_append, List.nil_append]
  conv => lhs; unfold readString
  simp only [hquote, if_false, if_true, unit?_hexDigits h, hhigh, Bool.false_eq_true, false_and]
  split
  · rfl
  · rfl

theorem joined_pair {c : CodePoint} (h : 0x10000 ≤ c.val) :
    joined (0xd800 + (c.val - 0x10000) / 0x400) (0xdc00 + (c.val - 0x10000) % 0x400) = c := by
  have hsum : 0x10000 + (0xd800 + (c.val - 0x10000) / 0x400 - 0xd800) * 0x400 +
      (0xdc00 + (c.val - 0x10000) % 0x400 - 0xdc00) = c.val := by omega
  rw [joined, hsum, Fin.ofNat_val_eq_self]

/-- A high surrogate and a low one after it are one character. -/
theorem readString_pair {high low : Nat} (hhigh : isHigh high = true) (hlow : isLow low = true) (rest : Text) :
    readString (unitEscape high ++ unitEscape low ++ rest) = put (joined high low) (readString rest) := by
  have hquote : ¬ backslash = quote := by decide
  have hsmall : high < 0x10000 ∧ low < 0x10000 := by
    simp only [isHigh, isLow, Bool.and_eq_true, decide_eq_true_eq] at hhigh hlow
    omega
  simp only [unitEscape, List.cons_append, List.nil_append]
  conv => lhs; unfold readString
  simp only [hquote, if_false, if_true, unit?_hexDigits hsmall.1, unit?_hexDigits hsmall.2, hhigh, hlow, Option.any_some, true_and,
    Option.getD_some]

theorem readString_escape {ascii : Bool} (c : CodePoint) (h : ascii = true → c.isSurrogate = false) (rest : Text) :
    readString (escape ascii c ++ rest) = put c (readString rest) := by
  unfold escape
  cases hc : letters.lookup c with
  | some letter =>
    obtain ⟨front, back, heq, -⟩ := List.lookup_eq_some_iff.mp hc
    obtain ⟨hletter, hvalue⟩ := letters_read (c, letter) (heq ▸ List.mem_append_right _ List.mem_cons_self)
    have hquote : ¬ backslash = quote := by decide
    simp only [List.cons_append, List.nil_append]
    conv => lhs; unfold readString
    simp only [hquote, if_false, if_true, hletter, hvalue]
  | none =>
    obtain ⟨hquote, hback⟩ := not_letter c hc
    have hc := c.isLt
    simp only [mustEscape, Bool.not_eq_true', Bool.or_eq_false_iff, decide_eq_false_iff_not]
    split
    · rename_i hplain
      rw [List.singleton_append]
      conv => lhs; unfold readString
      simp only [hquote, hback, hplain.1, if_false]
    · rename_i hescaped
      have hplain : c.val < 0x20 ∨ c.isSurrogate = false ∧ 0x7e < c.val := by
        by_cases hcontrol : c.val < 0x20
        · exact .inl hcontrol
        · cases ascii with
          | false => exact absurd ⟨hcontrol, rfl⟩ hescaped
          | true =>
            refine .inr ⟨h rfl, Nat.lt_of_not_le fun hle => hescaped ⟨hcontrol, ?_⟩⟩
            simpa using hle
      simp only [CodePoint.isSurrogate, Bool.and_eq_false_iff, decide_eq_false_iff_not] at hplain
      split
      · rename_i hsmall
        have hhigh : isHigh c.val = false := by
          rw [isHigh, Bool.and_eq_false_iff, decide_eq_false_iff_not, decide_eq_false_iff_not]
          omega
        rw [readString_unitEscape hsmall hhigh, Fin.ofNat_val_eq_self]
      · rename_i hlarge
        rw [readString_pair, joined_pair (by omega)]
        · simp only [isHigh, Bool.and_eq_true, decide_eq_true_eq]
          omega
        · simp only [isLow, Bool.and_eq_true, decide_eq_true_eq]
          omega

/-- **A string is read back**, up to its closing quote: in ASCII, if it has no surrogates. -/
theorem readString_flatMap {ascii : Bool} {s : Text} (h : ascii = true → Text.encodable s = true) (rest : Text) :
    readString (s.flatMap (escape ascii) ++ quote :: rest) = some (s, rest) := by
  induction s with
  | nil =>
    conv => lhs; unfold readString
    exact if_pos rfl
  | cons c s ih =>
    have hall : ascii = true → c.isSurrogate = false ∧ Text.encodable s = true := by
      intro hascii
      simpa [Text.encodable] using h hascii
    rw [List.flatMap_cons, List.append_assoc, readString_escape c (fun hascii => (hall hascii).1),
      ih fun hascii => (hall hascii).2]
    rfl

/-! ### Numbers are read back -/

/-- What may follow a value. -/
def Stops (rest : Text) : Prop := ∀ c ∈ rest.head?, c = comma ∨ c = closeBracket ∨ c = closeBrace

theorem stops_nil : Stops [] := nofun

theorem stops_comma (rest : Text) : Stops (comma :: rest) := by
  intro c hc
  cases hc
  exact .inl rfl

theorem stops_closeBracket (rest : Text) : Stops (closeBracket :: rest) := by
  intro c hc
  cases hc
  exact .inr (.inl rfl)

theorem stops_closeBrace (rest : Text) : Stops (closeBrace :: rest) := by
  intro c hc
  cases hc
  exact .inr (.inr rfl)

/-- What follows a run of digits: nothing that belongs to it. -/
def NoDigit (rest : Text) : Prop := ∀ c ∈ rest.head?, isDigit c = false

theorem Stops.noDigit {rest : Text} (h : Stops rest) : NoDigit rest := by
  intro c hc
  obtain rfl | rfl | rfl := h c hc <;> rfl

theorem span_digits {digits rest : Text} (hdigits : ∀ c ∈ digits, isDigit c = true) (hrest : NoDigit rest) :
    (digits ++ rest).takeWhile isDigit = digits ∧ (digits ++ rest).dropWhile isDigit = rest := by
  rw [List.takeWhile_append_of_pos hdigits, List.dropWhile_append_of_pos hdigits]
  cases rest with
  | nil => simp
  | cons c rest =>
    have hc : isDigit c = false := hrest c rfl
    simp [hc]

theorem readWhole_append {whole rest : Text} (h : Whole whole) (hrest : NoDigit rest) :
    readWhole (whole ++ rest) = some (whole, rest) := by
  obtain ⟨⟨hne, hdigits⟩, hzero⟩ := h
  cases whole with
  | nil => exact absurd rfl hne
  | cons c digits =>
    obtain ⟨hc, hdigits⟩ := List.forall_mem_cons.mp hdigits
    obtain ⟨htake, hdrop⟩ := span_digits hdigits hrest
    by_cases hfirst : c = digit 0
    · obtain ⟨-, rfl⟩ := List.cons.inj (hzero (by rw [List.head?_cons, hfirst]))
      simp [readWhole, hfirst]
    · simp [readWhole, hfirst, hc, htake, hdrop]

theorem readFraction_append {digits rest : Text} (h : Digits digits) (hrest : NoDigit rest) :
    readFraction (point :: digits ++ rest) = (point :: digits, rest) := by
  obtain ⟨htake, hdrop⟩ := span_digits h.2 hrest
  simp [readFraction, htake, hdrop, h.1]

theorem readFraction_none {rest : Text} (h : rest.head? ≠ some point) : readFraction rest = ([], rest) := by
  cases rest with
  | nil => rfl
  | cons c rest =>
    have hc : c ≠ point := fun heq => h (by rw [heq]; rfl)
    simp [readFraction, hc]

theorem readExponent_append {sign digits rest : Text} (hsign : sign = [] ∨ sign = [minus] ∨ sign = [plus]) (h : Digits digits)
    (hrest : NoDigit rest) : readExponent (0x65 :: sign ++ digits ++ rest) = (0x65 :: sign ++ digits, rest) := by
  obtain ⟨htake, hdrop⟩ := span_digits h.2 hrest
  have hread : readSign (sign ++ (digits ++ rest)) = (sign, digits ++ rest) := by
    obtain rfl | rfl | rfl := hsign
    · obtain ⟨c, digits, rfl⟩ := List.exists_cons_of_ne_nil h.1
      have hc := h.2 c List.mem_cons_self
      have hnot : ¬ (c = minus ∨ c = plus) := by
        intro hsign
        obtain rfl | rfl := hsign <;> cases hc
      simp [readSign, hnot]
    · simp [readSign]
    · simp [readSign]
  simp only [List.cons_append, List.append_assoc, readExponent, hread, htake, hdrop]
  simp [h.1]

theorem readExponent_none {rest : Text} (h : Stops rest) : readExponent rest = ([], rest) := by
  cases rest with
  | nil => rfl
  | cons c rest =>
    have hc : ¬ (c = 0x65 ∨ c = 0x45) := by
      intro hletter
      obtain rfl | rfl | rfl := h c rfl <;> obtain hletter | hletter := hletter <;> cases hletter
    simp only [readExponent, hc, false_and, if_false]

theorem not_point {rest : Text} (h : Stops rest) : rest.head? ≠ some point := by
  intro heq
  obtain hc | hc | hc := h point heq <;> cases hc

theorem val_digit {n : Nat} (h : n < 10) : (digit n).val = 0x30 + n := Nat.mod_eq_of_lt (by omega)

theorem isDigit_digit {n : Nat} (h : n < 10) : isDigit (digit n) = true := by
  rw [isDigit, val_digit h]
  simp
  omega

/-- The digits of a number that is not zero, from the last to the first. -/
theorem writeNat_of_ne {n : Nat} (h : n ≠ 0) : writeNat n = ((Nat.digits 10 n).map digit).reverse := if_neg h

theorem natOf_writeNat (n : Nat) : natOf (writeNat n) = n := by
  by_cases h : n = 0
  · subst h
    decide
  · have hback : ((Nat.digits 10 n).map digit).map (fun c => c.val - 0x30) = Nat.digits 10 n := by
      rw [List.map_map]
      conv => rhs; rw [← List.map_id (Nat.digits 10 n)]
      refine List.map_congr_left fun d hd => ?_
      show (digit d).val - 0x30 = d
      rw [val_digit (Nat.digits_lt_base (by decide) hd)]
      omega
    rw [natOf, writeNat_of_ne h, List.reverse_reverse, hback, Nat.ofDigits_digits]

theorem whole_writeNat (n : Nat) : Whole (writeNat n) := by
  by_cases h : n = 0
  · subst h
    exact ⟨⟨List.cons_ne_nil _ _, fun c hc => by rw [List.mem_singleton.mp hc]; rfl⟩, fun _ => rfl⟩
  · have hne : Nat.digits 10 n ≠ [] := Nat.digits_ne_nil_iff_ne_zero.mpr h
    rw [writeNat_of_ne h]
    refine ⟨⟨by simp [hne], fun c hc => ?_⟩, fun hzero => ?_⟩
    · obtain ⟨d, hd, rfl⟩ := List.mem_map.mp (List.mem_reverse.mp hc)
      exact isDigit_digit (Nat.digits_lt_base (by decide) hd)
    · -- The first digit written is the last of `Nat.digits`, which is not zero.
      exfalso
      have hlast := Nat.getLast_digit_ne_zero 10 h
      rw [List.head?_reverse, List.getLast?_map, List.getLast?_eq_some_getLast hne, Option.map_some, Option.some.injEq] at hzero
      have hval := congrArg Fin.val hzero
      rw [val_digit (Nat.digits_lt_base (by decide) (List.getLast_mem hne)), val_digit (by decide)] at hval
      omega

variable {f}

/-- **An integer is read back**, up to what cannot follow its digits. -/
theorem readNumber_writeInt {n : Int} (hn : (writeNat n.natAbs).length ≤ maximumDigits) {rest : Text} (h : Stops rest) :
    readNumber f (writeInt n ++ rest) = some (.int n, rest) := by
  have hpoint := not_point h
  have hread : ∀ n : Nat, readWhole (writeNat n ++ rest) = some (writeNat n, rest) := fun n =>
    readWhole_append (whole_writeNat n) h.noDigit
  cases n with
  | ofNat n =>
    obtain ⟨⟨hne, hdigits⟩, -⟩ := whole_writeNat n
    have hhead : ¬ (writeNat n ++ rest).head? = some minus := by
      obtain ⟨c, digits, heq⟩ := List.exists_cons_of_ne_nil hne
      have hc := hdigits c (heq ▸ List.mem_cons_self)
      rw [heq]
      intro hminus
      cases hminus
      cases hc
    have hsize : (writeNat n).length ≤ maximumDigits := hn
    simp only [writeInt, readNumber, hhead, if_false, Option.bind_eq_bind, hread, Option.bind_some, readFraction_none hpoint,
      readExponent_none h, and_self, if_true, guard, hsize, intOf, natOf_writeNat]
    rfl
  | negSucc n =>
    have hsize : (writeNat (n + 1)).length ≤ maximumDigits := hn
    have hsign : ¬ [minus] = [] := List.cons_ne_nil _ _
    simp only [writeInt, readNumber, List.cons_append, List.head?_cons, List.tail_cons, if_true, Option.bind_eq_bind, hread,
      Option.bind_some, readFraction_none hpoint, readExponent_none h, and_self, guard, hsize, intOf, hsign, if_false,
      natOf_writeNat]
    rfl

/-- What an exponent, or none, begins with, and that it is read. -/
theorem readExponent_eq {exponent rest : Text} (h : Stops rest) (hexponent : exponent = [] ∨ ∃ sign digits, Digits digits ∧
    (sign = [] ∨ sign = [minus] ∨ sign = [plus]) ∧ exponent = 0x65 :: sign ++ digits) :
    NoDigit (exponent ++ rest) ∧ (exponent ++ rest).head? ≠ some point ∧
      readExponent (exponent ++ rest) = (exponent, rest) := by
  obtain rfl | ⟨sign, digits, hdigits, hsign, rfl⟩ := hexponent
  · exact ⟨h.noDigit, not_point h, readExponent_none h⟩
  · refine ⟨fun c hc => ?_, fun hc => ?_, readExponent_append hsign hdigits h.noDigit⟩
    · cases hc
      rfl
    · cases hc

/-- What a fraction, or none, begins with, and that it is read. -/
theorem readFraction_eq {fraction rest : Text} (hdigit : NoDigit rest) (hpoint : rest.head? ≠ some point)
    (hfraction : fraction = [] ∨ ∃ digits, Digits digits ∧ fraction = point :: digits) :
    NoDigit (fraction ++ rest) ∧ readFraction (fraction ++ rest) = (fraction, rest) := by
  obtain rfl | ⟨digits, hdigits, rfl⟩ := hfraction
  · exact ⟨hdigit, readFraction_none hpoint⟩
  · refine ⟨fun c hc => ?_, readFraction_append hdigits hdigit⟩
    cases hc
    rfl

/-- **A floating-point number is read back.** -/
theorem readNumber_repr {t : Text} (ht : FloatText t) {rest : Text} (h : Stops rest) :
    readNumber f (t ++ rest) = some (.float (f.ofText t), rest) := by
  obtain ⟨sign, whole, fraction, exponent, rfl, hsign, hwhole, hfraction, hexponent, hsome⟩ := ht.shape
  obtain ⟨hdigit, hpoint, hreadExponent⟩ := readExponent_eq h hexponent
  obtain ⟨hdigit', hreadFraction⟩ := readFraction_eq hdigit hpoint hfraction
  have hreadWhole := readWhole_append hwhole hdigit'
  have hfloat : ¬ (fraction = [] ∧ exponent = []) := fun hnone => hsome.elim (· hnone.1) (· hnone.2)
  obtain rfl | rfl := hsign
  · have hhead : ¬ (whole ++ (fraction ++ (exponent ++ rest))).head? = some minus := by
      obtain ⟨c, digits, heq⟩ := List.exists_cons_of_ne_nil hwhole.1.1
      have hc := hwhole.1.2 c (heq ▸ List.mem_cons_self)
      rw [heq]
      intro hminus
      cases hminus
      cases hc
    simp only [readNumber, List.nil_append, List.append_assoc, hhead, if_false, Option.bind_eq_bind, hreadWhole,
      Option.bind_some, hreadFraction, hreadExponent, hfloat]
    rfl
  · simp only [readNumber, List.cons_append, List.nil_append, List.append_assoc, List.head?_cons, List.tail_cons, if_true,
      Option.bind_eq_bind, hreadWhole, Option.bind_some, hreadFraction, hreadExponent, hfloat, if_false]
    rfl

/-! ### Values are read back -/

/-- A text that is not mistaken for space or for the end of a list or an object. -/
def Begins (t : Text) : Prop :=
  ∃ c rest, t = c :: rest ∧ isSpace c = false ∧ c ≠ closeBracket ∧ c ≠ closeBrace

theorem begins_of_isDigit {c : CodePoint} (hc : isDigit c = true) (rest : Text) : Begins (c :: rest) := by
  refine ⟨c, rest, rfl, ?_, ?_, ?_⟩
  · by_contra hspace
    rw [Bool.not_eq_false] at hspace
    simp only [isDigit, isSpace, Bool.and_eq_true, Bool.or_eq_true, decide_eq_true_eq] at hc hspace
    omega
  · intro heq
    subst heq
    cases hc
  · intro heq
    subst heq
    cases hc

/-- What a number begins with. -/
def NumberHead (t : Text) : Prop := ∃ c rest, isDigit c = true ∧ (t = c :: rest ∨ t = minus :: c :: rest)

theorem NumberHead.begins {t : Text} (h : NumberHead t) : Begins t := by
  obtain ⟨c, rest, hc, rfl | rfl⟩ := h
  · exact begins_of_isDigit hc rest
  · exact ⟨minus, _, rfl, rfl, by decide, by decide⟩

theorem numberHead_append {sign digits : Text} (hsign : sign = [] ∨ sign = [minus]) (h : Digits digits) (rest : Text) :
    NumberHead (sign ++ digits ++ rest) := by
  obtain ⟨c, digits, rfl⟩ := List.exists_cons_of_ne_nil h.1
  have hc := h.2 c List.mem_cons_self
  obtain rfl | rfl := hsign
  · exact ⟨c, digits ++ rest, hc, .inl rfl⟩
  · exact ⟨c, digits ++ rest, hc, .inr rfl⟩

theorem numberHead_writeInt (n : Int) (rest : Text) : NumberHead (writeInt n ++ rest) := by
  cases n with
  | ofNat n => exact numberHead_append (.inl rfl) (whole_writeNat n).1 rest
  | negSucc n => exact numberHead_append (.inr rfl) (whole_writeNat (n + 1)).1 rest

theorem FloatText.numberHead {t : Text} (h : FloatText t) (rest : Text) : NumberHead (t ++ rest) := by
  obtain ⟨sign, whole, fraction, exponent, rfl, hsign, hwhole, -⟩ := h.shape
  rw [List.append_assoc, List.append_assoc]
  exact numberHead_append hsign hwhole.1 _

/-- A word that begins like no number. -/
theorem not_startsWith_number {a b : CodePoint} {word t : Text} (ha : isDigit a = false) (hb : isDigit b = false)
    (h : NumberHead t) : Text.startsWith (a :: b :: word) t = false := by
  rw [Text.startsWith, Bool.eq_false_iff]
  intro hstart
  obtain ⟨rest', hrest'⟩ := List.isPrefixOf_iff_prefix.mp hstart
  obtain ⟨c, rest, hc, rfl | rfl⟩ := h
  · cases hrest'
    rw [hc] at ha
    cases ha
  · cases hrest'
    rw [hc] at hb
    cases hb

variable {hooks : Hooks φ}

/-- A number is no word. -/
theorem readScalar_number (hooks : Hooks φ) {t : Text} (h : NumberHead t) : readScalar f hooks t = readNumber f t := by
  have hnull : Text.startsWith (Text.ofString "null") t = false := not_startsWith_number rfl rfl h
  have htrue : Text.startsWith (Text.ofString "true") t = false := not_startsWith_number rfl rfl h
  have hfalse : Text.startsWith (Text.ofString "false") t = false := not_startsWith_number rfl rfl h
  have hnan : Text.startsWith (Text.ofString "NaN") t = false := not_startsWith_number rfl rfl h
  have hinf : Text.startsWith (Text.ofString "Infinity") t = false := not_startsWith_number rfl rfl h
  have hneg : Text.startsWith (Text.ofString "-Infinity") t = false := not_startsWith_number rfl rfl h
  simp [readScalar, readConstant, readWord, hnull, htrue, hfalse, hnan, hinf, hneg]

/-- A value that is no string, list or object is read by `readScalar`. -/
theorem readValue_scalar {c : CodePoint} (hquote : c ≠ quote) (hbracket : c ≠ openBracket) (hbrace : c ≠ openBrace) (n : Nat)
    (s : Text) : readValue f hooks n (c :: s) = readScalar f hooks (c :: s) := by
  unfold readValue
  simp [hquote, hbracket, hbrace]

theorem readValue_number {t : Text} (h : NumberHead t) (n : Nat) : readValue f hooks n t = readNumber f t := by
  rw [← readScalar_number hooks h]
  obtain ⟨c, rest, hc, rfl | rfl⟩ := h
  · refine readValue_scalar ?_ ?_ ?_ n rest
    · intro heq
      subst heq
      cases hc
    · intro heq
      subst heq
      cases hc
    · intro heq
      subst heq
      cases hc
  · exact readValue_scalar (by decide) (by decide) (by decide) n _

theorem readWord_append {α : Type} (word : Text) (v : α) (rest : Text) :
    readWord word (some v) (word ++ rest) = some (v, rest) := by
  have hstart : Text.startsWith word (word ++ rest) = true := List.isPrefixOf_iff_prefix.mpr (List.prefix_append _ _)
  simp [readWord, hstart]

theorem readScalar_null (rest : Text) : readScalar f hooks (Text.ofString "null" ++ rest) = some (.null, rest) := by
  rw [readScalar, readWord_append]
  rfl

theorem readScalar_true (rest : Text) : readScalar f hooks (Text.ofString "true" ++ rest) = some (.bool true, rest) := by
  have hnull : Text.startsWith (Text.ofString "null") (Text.ofString "true" ++ rest) = false := by rfl
  rw [readScalar, readWord_append, readWord, hnull]
  rfl

theorem readScalar_false (rest : Text) : readScalar f hooks (Text.ofString "false" ++ rest) = some (.bool false, rest) := by
  have hnull : Text.startsWith (Text.ofString "null") (Text.ofString "false" ++ rest) = false := by rfl
  have htrue : Text.startsWith (Text.ofString "true") (Text.ofString "false" ++ rest) = false := by rfl
  rw [readScalar, readWord_append, readWord, readWord, hnull, htrue]
  rfl

theorem Begins.append {t : Text} (h : Begins t) (rest : Text) : Begins (t ++ rest) := by
  obtain ⟨c, t, rfl, hc⟩ := h
  exact ⟨c, t ++ rest, rfl, hc⟩

theorem skipSpace_begins {t : Text} (h : Begins t) : skipSpace t = t := by
  obtain ⟨c, t, rfl, hspace, -⟩ := h
  simp [skipSpace, hspace]

theorem begins_intercalate {pieces : List Text} (hne : pieces ≠ []) (h : ∀ piece ∈ pieces, Begins piece) :
    Begins ([comma].intercalate pieces) := by
  cases pieces with
  | nil => exact absurd rfl hne
  | cons piece rest =>
    have hpiece := h piece List.mem_cons_self
    cases rest with
    | nil => rwa [List.intercalate_singleton]
    | cons next rest =>
      rw [List.intercalate_cons_cons, List.append_assoc]
      exact hpiece.append _

section
variable {α : Type} {one : Text → Option (α × Text)} {text : α → Text} {close : CodePoint}

/-- What is written of a thing is read back, up to what may follow it. -/
def ReadsBack (one : Text → Option (α × Text)) (text : α → Text) (a : α) : Prop :=
  Begins (text a) ∧ ∀ rest, Stops rest → one (text a ++ rest) = some (a, rest)

/-- Things between commas are read back, up to what closes them. -/
theorem readMany_intercalate (hclose : close ≠ comma) (hspace : isSpace close = false) {rest : Text}
    (hstops : Stops (close :: rest)) {items : List α} (hne : items ≠ []) (h : ∀ a ∈ items, ReadsBack one text a) {n : Nat}
    (hn : items.length ≤ n) :
    readMany one close n ([comma].intercalate (items.map text) ++ close :: rest) = some (items, rest) := by
  have hskip : skipSpace (close :: rest) = close :: rest := by simp [skipSpace, hspace]
  induction items generalizing n with
  | nil => exact absurd rfl hne
  | cons a items ih =>
    obtain ⟨⟨hbegins, hone⟩, hitems⟩ := List.forall_mem_cons.mp h
    cases n with
    | zero => simp at hn
    | succ n =>
      cases items with
      | nil =>
        simp only [List.map_cons, List.map_nil, List.intercalate_singleton, readMany, hone _ hstops, Option.bind_eq_bind,
          Option.bind_some, hskip, if_true]
        rfl
      | cons b items =>
        have hcomma : ∀ t : Text, skipSpace (comma :: t) = comma :: t := fun t => by simp [skipSpace, isSpace, comma]
        have hrest := ih (List.cons_ne_nil b items) hitems (n := n) (Nat.le_of_succ_le_succ hn)
        have hskip' := skipSpace_begins ((begins_intercalate (List.cons_ne_nil (text b) _)
          (List.forall_mem_map.mpr fun c hc => (hitems c hc).1)).append (close :: rest))
        rw [List.map_cons] at hrest
        rw [List.map_cons, List.map_cons, List.intercalate_cons_cons, List.append_assoc, List.append_assoc]
        simp only [readMany, List.singleton_append, hone _ (stops_comma _), Option.bind_eq_bind, Option.bind_some, hcomma,
          hclose.symm, if_false, if_true, hskip', hrest]
        rfl

/-- What stands in brackets or braces is read back. -/
theorem readAll_intercalate (hclose : close = closeBracket ∨ close = closeBrace) (rest : Text) {items : List α}
    (h : ∀ a ∈ items, ReadsBack one text a) :
    readAll one close ([comma].intercalate (items.map text) ++ close :: rest) = some (items, rest) := by
  have hspace : isSpace close = false ∧ close ≠ comma ∧ Stops (close :: rest) := by
    obtain rfl | rfl := hclose
    · exact ⟨rfl, by decide, stops_closeBracket rest⟩
    · exact ⟨rfl, by decide, stops_closeBrace rest⟩
  cases items with
  | nil => simp [readAll, skipSpace, hspace.1]
  | cons a items =>
    have hbegins := begins_intercalate (List.cons_ne_nil (text a) (items.map text))
      (List.forall_mem_map.mpr fun b hb => (h b hb).1)
    have hlength := length_intercalate (text a :: items.map text)
    have hmany : ∀ n, _ → _ := fun n => readMany_intercalate hspace.2.1 hspace.1 hspace.2.2 (List.cons_ne_nil a items) h (n := n)
    rw [List.map_cons] at hmany ⊢
    obtain ⟨c, s, hs, -, hbracket, hbrace⟩ := hbegins.append (close :: rest)
    have hc : c ≠ close := by
      obtain rfl | rfl := hclose
      · exact hbracket
      · exact hbrace
    have hskip := skipSpace_begins (hbegins.append (close :: rest))
    rw [readAll, hskip, hs]
    simp only [hc, if_false]
    rw [← hs]
    refine hmany _ ?_
    have hs' := congrArg List.length hs
    simp only [List.length_append, List.length_cons, List.length_map, hlength] at hs' ⊢
    omega

end

/-- The strings of a value that stand where it does. -/
def encodableHere : JsonValue φ → Bool
  | .string s => Text.encodable s
  | .object fields => fields.all fun field => Text.encodable field.1
  | _ => true

section
variable {ascii : Bool}

/-- A field is read back if its value is. -/
theorem readField_append {value : Text → Option (JsonValue φ × Text)} {field : Text × JsonValue φ}
    (hkey : ascii = true → Text.encodable field.1 = true) (h : ReadsBack value (write f ascii) field.2) :
    ReadsBack (readField value) (fun field => writeString ascii field.1 ++ colon :: write f ascii field.2) field := by
  refine ⟨⟨quote, _, rfl, rfl, by decide, by decide⟩, fun rest hrest => ?_⟩
  have hcolon : ∀ t : Text, skipSpace (colon :: t) = colon :: t := fun t => by simp [skipSpace, isSpace, colon]
  have hread := readString_flatMap hkey (colon :: (write f ascii field.2 ++ rest))
  have hskip := skipSpace_begins (h.1.append rest)
  simp only [writeString, List.cons_append, List.append_assoc, List.nil_append, readField, ne_eq, not_true, if_false,
    Option.bind_eq_bind, hread, Option.bind_some, hcolon, hskip, h.2 rest hrest]
  rfl

/-- A value that is no list or object is read back, however deep it stands. -/
theorem readsBack_scalar {v : JsonValue φ} (hv : JsonValue.fitsIn 0 v = true) (hw : isWritable f v = true)
    (hs : ascii = true → encodableHere v = true) (n : Nat) : ReadsBack (readValue f hooks n) (write f ascii) v := by
  cases v with
  | null =>
    refine ⟨⟨0x6e, _, rfl, rfl, by decide, by decide⟩, fun rest hrest => ?_⟩
    exact (readValue_scalar (c := 0x6e) (by decide) (by decide) (by decide) n _).trans (readScalar_null rest)
  | bool b =>
    cases b with
    | false =>
      refine ⟨⟨0x66, _, rfl, rfl, by decide, by decide⟩, fun rest hrest => ?_⟩
      exact (readValue_scalar (c := 0x66) (by decide) (by decide) (by decide) n _).trans (readScalar_false rest)
    | true =>
      refine ⟨⟨0x74, _, rfl, rfl, by decide, by decide⟩, fun rest hrest => ?_⟩
      exact (readValue_scalar (c := 0x74) (by decide) (by decide) (by decide) n _).trans (readScalar_true rest)
  | int m =>
    have hm : (writeNat m.natAbs).length ≤ maximumDigits := by simpa [isWritable, JsonValue.every, writableHere] using hw
    refine ⟨?_, fun rest hrest => ?_⟩
    · have := (numberHead_writeInt m []).begins
      rwa [List.append_nil] at this
    · show readValue f hooks n (writeInt m ++ rest) = _
      rw [readValue_number (numberHead_writeInt m rest), readNumber_writeInt hm hrest]
  | float x =>
    have hx : f.isFinite x = true := hw
    have ht := f.floatText x hx
    refine ⟨?_, fun rest hrest => ?_⟩
    · have := (ht.numberHead []).begins
      rwa [List.append_nil] at this
    · show readValue f hooks n (f.repr x ++ rest) = _
      rw [readValue_number (ht.numberHead rest), readNumber_repr ht hrest, f.ofText_repr x hx]
  | string s =>
    refine ⟨⟨quote, _, rfl, rfl, by decide, by decide⟩, fun rest hrest => ?_⟩
    have hread := readString_flatMap hs rest
    unfold readValue
    simp [write, writeString, hread]
  | array items => cases hv
  | object fields => cases hv

/-- An object is read back whatever follows it. -/
theorem readValue_object (hobject : ∀ fields, (fields.map Prod.fst).Nodup → hooks.object fields = some fields) {n : Nat}
    {fields : List (Text × JsonValue φ)} (hkeys : (fields.map Prod.fst).Nodup)
    (hs : ascii = true → encodableHere (.object fields) = true)
    (hfields : ∀ field ∈ fields, ReadsBack (readValue f hooks n) (write f ascii) field.2) (rest : Text) :
    readValue f hooks (n + 1) (write f ascii (.object fields) ++ rest) = some (.object fields, rest) := by
  have hquote : ¬ openBrace = quote := by decide
  have hbracket : ¬ openBrace = openBracket := by decide
  have hread := readAll_intercalate (.inr rfl) rest fun field hfield =>
    readField_append (fun hascii => List.all_eq_true.mp (hs hascii) field hfield) (hfields field hfield)
  unfold readValue
  simp only [write, writeFields_eq, List.cons_append, List.append_assoc, List.nil_append, hquote, hbracket, if_false,
    if_true, hread, Option.bind_eq_bind, Option.bind_some, hobject fields hkeys]
  rfl

/-- **What is written is read back**, by a reader that may go as deep as it and keeps objects as they are. -/
theorem readValue_write (hobject : ∀ fields, (fields.map Prod.fst).Nodup → hooks.object fields = some fields) {n : Nat}
    {v : JsonValue φ} (hfit : v.fitsIn n = true) (hw : isWritable f v = true)
    (hs : ascii = true → JsonValue.every encodableHere v = true) (hunique : v.HasUniqueKeys) :
    ReadsBack (readValue f hooks n) (write f ascii) v := by
  have hquote : ¬ openBracket = quote := by decide
  induction n generalizing v with
  | zero =>
    refine readsBack_scalar hfit hw (fun hascii => ?_) 0
    have hall := hs hascii
    cases v with
    | array items => cases hfit
    | object fields => cases hfit
    | _ => exact hall
  | succ n ih =>
    cases v with
    | array items =>
      have hitems : ∀ v ∈ items, ReadsBack (readValue f hooks n) (write f ascii) v := by
        intro v hv
        exact ih (List.all_eq_true.mp hfit v hv) (((JsonValue.every_array _).mp hw).2 v hv)
          (fun hascii => ((JsonValue.every_array _).mp (hs hascii)).2 v hv) (((JsonValue.every_array _).mp hunique).2 v hv)
      refine ⟨⟨openBracket, _, rfl, rfl, by decide, by decide⟩, fun rest hrest => ?_⟩
      have hread := readAll_intercalate (.inl rfl) rest hitems
      unfold readValue
      simp only [write, writeItems_eq, List.cons_append, List.append_assoc, List.nil_append, hquote, if_false, if_true, hread]
      rfl
    | object fields =>
      refine ⟨⟨openBrace, _, rfl, rfl, by decide, by decide⟩, fun rest _ => ?_⟩
      apply readValue_object hobject (of_decide_eq_true ((JsonValue.every_object _).mp hunique).1)
        fun hascii => ((JsonValue.every_object _).mp (hs hascii)).1
      intro field hfield
      exact ih (List.all_eq_true.mp hfit field hfield) (((JsonValue.every_object _).mp hw).2 field hfield)
        (fun hascii => ((JsonValue.every_object _).mp (hs hascii)).2 field hfield)
        (((JsonValue.every_object _).mp hunique).2 field hfield)
    | null => exact readsBack_scalar rfl hw hs _
    | bool b => exact readsBack_scalar rfl hw hs _
    | int m => exact readsBack_scalar rfl hw hs _
    | float x => exact readsBack_scalar rfl hw hs _
    | string s => exact readsBack_scalar rfl hw hs _

/-- **`json.loads` of a value that was written as it stands.** -/
theorem loads_write (hobject : ∀ fields, (fields.map Prod.fst).Nodup → hooks.object fields = some fields) {n : Nat}
    {v : JsonValue φ} (hfit : v.fitsIn n = true) (hw : isWritable f v = true)
    (hs : ascii = true → JsonValue.every encodableHere v = true) (hunique : v.HasUniqueKeys) :
    loads f hooks n (write f ascii v) = some v := by
  obtain ⟨hbegins, hread⟩ := readValue_write hobject hfit hw hs hunique
  have hall := hread [] stops_nil
  rw [List.append_nil] at hall
  rw [loads, skipSpace_begins hbegins, hall]
  rfl

end

/-! ### Sorted keys -/

/-- Sorting keys keeps a check at every value, if it does where a value stands. -/
theorem every_sortKeys {p : JsonValue φ → Bool} (hp : ∀ v, p v = true → p (sortKeys v) = true) {v : JsonValue φ}
    (h : JsonValue.every p v = true) : JsonValue.every p (sortKeys v) = true := by
  induction v using JsonValue.induction with
  | null => exact h
  | bool b => exact h
  | int n => exact h
  | float x => exact h
  | string s => exact h
  | array items ih =>
    obtain ⟨hhere, hitems⟩ := (JsonValue.every_array _).mp h
    refine (JsonValue.every_array _).mpr ⟨hp _ hhere, fun v hv => ?_⟩
    rw [sortItems_eq] at hv
    obtain ⟨w, hw, rfl⟩ := List.mem_map.mp hv
    exact ih w hw (hitems w hw)
  | object fields ih =>
    obtain ⟨hhere, hfields⟩ := (JsonValue.every_object _).mp h
    refine (JsonValue.every_object _).mpr ⟨hp _ hhere, fun field hfield => ?_⟩
    rw [List.mem_insertionSort, sortFields_eq] at hfield
    obtain ⟨field', hfield', rfl⟩ := List.mem_map.mp hfield
    exact ih field' hfield' (hfields field' hfield')

theorem isWritable_sortKeys {v : JsonValue φ} (h : isWritable f v = true) : isWritable f (sortKeys v) = true := by
  refine every_sortKeys (fun v hv => ?_) h
  cases v with
  | array items => rfl
  | object fields => rfl
  | _ => exact hv

/-- Keys that are sorted stay as they are. -/
theorem sortKeys_sortKeys (v : JsonValue φ) : sortKeys (sortKeys v) = sortKeys v := by
  induction v using JsonValue.induction with
  | null => rfl
  | bool b => rfl
  | int n => rfl
  | float x => rfl
  | string s => rfl
  | array items ih =>
    rw [sortKeys, sortKeys, sortItems_eq, sortItems_eq, List.map_map]
    exact congrArg JsonValue.array (List.map_congr_left ih)
  | object fields ih =>
    rw [sortKeys, sortKeys]
    have hsame : sortFields ((sortFields fields).insertionSort fun field field' => field.1 ≤ field'.1) =
        (sortFields fields).insertionSort fun field field' => field.1 ≤ field'.1 := by
      rw [sortFields_eq]
      refine (List.map_congr_left fun field hfield => ?_).trans (List.map_id _)
      rw [List.mem_insertionSort, sortFields_eq] at hfield
      obtain ⟨field', hfield', rfl⟩ := List.mem_map.mp hfield
      exact congrArg (Prod.mk field'.1) (ih field' hfield')
    rw [hsame]
    have hsorted := List.pairwise_insertionSort (fun field field' : Text × JsonValue φ => field.1 ≤ field'.1) (sortFields fields)
    rw [hsorted.insertionSort_eq]

/-- The keys that are sorted are the keys. -/
theorem keys_sortKeys (fields : List (Text × JsonValue φ)) :
    (((sortFields fields).insertionSort fun field field' => field.1 ≤ field'.1).map Prod.fst).Perm (fields.map Prod.fst) := by
  have hperm := (List.perm_insertionSort (fun field field' : Text × JsonValue φ => field.1 ≤ field'.1)
    (sortFields fields)).map Prod.fst
  have hkeys : (sortFields fields).map Prod.fst = fields.map Prod.fst := by
    rw [sortFields_eq, List.map_map]
    rfl
  rwa [hkeys] at hperm

/-- A field is found under its key, sorted or not. -/
theorem get?_sortKeys {fields : List (Text × JsonValue φ)} (h : (fields.map Prod.fst).Nodup) (key : String) :
    JsonValue.get? ((sortFields fields).insertionSort fun field field' => field.1 ≤ field'.1) key =
      (JsonValue.get? fields key).map sortKeys := by
  have hsorted := (keys_sortKeys fields).nodup_iff.mpr h
  refine Option.ext fun w => ?_
  rw [JsonValue.get?_eq_some_iff hsorted, List.mem_insertionSort, sortFields_eq, List.mem_map, Option.map_eq_some_iff]
  constructor
  · intro ⟨field, hfield, heq⟩
    obtain ⟨hkey, hv⟩ := Prod.mk.inj heq
    exact ⟨field.2, (JsonValue.get?_eq_some_iff h).mpr (hkey ▸ hfield), hv⟩
  · intro ⟨v, hv, heq⟩
    subst heq
    exact ⟨_, (JsonValue.get?_eq_some_iff h).mp hv, rfl⟩

theorem hasUniqueKeys_sortKeys {v : JsonValue φ} (h : v.HasUniqueKeys) : (sortKeys v).HasUniqueKeys := by
  refine every_sortKeys (fun v hv => ?_) h
  cases v with
  | object fields => exact decide_eq_true ((keys_sortKeys fields).nodup_iff.mpr (of_decide_eq_true hv))
  | _ => exact hv

theorem fitsIn_sortKeys {n : Nat} {v : JsonValue φ} (h : v.fitsIn n = true) : (sortKeys v).fitsIn n = true := by
  induction n generalizing v with
  | zero =>
    cases v with
    | array items => cases h
    | object fields => cases h
    | _ => rfl
  | succ n ih =>
    cases v with
    | array items =>
      refine List.all_eq_true.mpr fun v hv => ?_
      rw [sortItems_eq] at hv
      obtain ⟨w, hw, rfl⟩ := List.mem_map.mp hv
      exact ih (List.all_eq_true.mp h w hw)
    | object fields =>
      refine List.all_eq_true.mpr fun field hfield => ?_
      rw [List.mem_insertionSort, sortFields_eq] at hfield
      obtain ⟨field', hfield', rfl⟩ := List.mem_map.mp hfield
      exact ih (List.all_eq_true.mp h field' hfield')
    | _ => rfl

/-- **`json.loads` of `json.dumps`** is the value, with its keys sorted. -/
theorem loads_dumps (hobject : ∀ fields, (fields.map Prod.fst).Nodup → hooks.object fields = some fields) {n : Nat}
    {v : JsonValue φ} (hfit : v.fitsIn n = true) (hunique : v.HasUniqueKeys) {t : Text} (h : dumps f false v = some t) :
    loads f hooks n t = some (sortKeys v) := by
  unfold dumps at h
  split at h
  · rename_i hw
    cases h
    exact loads_write hobject (fitsIn_sortKeys hfit) (isWritable_sortKeys hw) (fun h => absurd h Bool.false_ne_true)
      (hasUniqueKeys_sortKeys hunique)
  · cases h

/-- `json.loads` of an object that was written, with white space after it. -/
theorem loads_dumps_object (hobject : ∀ fields, (fields.map Prod.fst).Nodup → hooks.object fields = some fields) {n : Nat}
    {fields : List (Text × JsonValue φ)} (hfit : (JsonValue.object fields).fitsIn n = true)
    (hunique : (JsonValue.object fields).HasUniqueKeys) {t space : Text} (hspace : ∀ c ∈ space, isSpace c = true)
    (h : dumps f false (.object fields) = some t) : loads f hooks n (t ++ space) = some (sortKeys (.object fields)) := by
  unfold dumps at h
  split at h
  · rename_i hw
    cases h
    have hfit' := fitsIn_sortKeys hfit
    have hw' := isWritable_sortKeys hw
    have hunique' := hasUniqueKeys_sortKeys hunique
    rw [sortKeys] at hfit' hw' hunique' ⊢
    cases n with
    | zero => cases hfit'
    | succ n =>
      have hplain : ∀ P : Prop, false = true → P := fun _ h => absurd h Bool.false_ne_true
      have hread := readValue_object hobject (of_decide_eq_true ((JsonValue.every_object _).mp hunique').1) (hplain _)
        (fun field hfield => readValue_write hobject (n := n) (List.all_eq_true.mp hfit' field hfield)
          (((JsonValue.every_object _).mp hw').2 field hfield) (hplain _)
          (((JsonValue.every_object _).mp hunique').2 field hfield)) space
      have hbegins : Begins (write f false (.object ((sortFields fields).insertionSort fun a b => a.1 ≤ b.1))) :=
        ⟨openBrace, _, rfl, rfl, by decide, by decide⟩
      have hempty : skipSpace space = [] := List.dropWhile_eq_nil_iff.mpr hspace
      rw [loads, skipSpace_begins (hbegins.append space), hread]
      simp only [Option.bind_eq_bind, Option.bind_some, hempty, List.isEmpty_nil, guard_true]
      rfl
  · cases h

end Lib.JsonText
