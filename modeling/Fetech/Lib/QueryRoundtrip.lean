import Mathlib.Algebra.GroupWithZero.Nat
import Fetech.Lib.Query
import Fetech.Lib.UrlRoundtrip

/-! Queries that were written are read back.

`quote_plus` writes ASCII in which every byte can be told apart again, so `unquote_plus` gives
back any text; between the pieces of `urlencode` stand the only ampersands and equal signs. A
pair without a value is the one thing that is written and not read. -/
namespace Lib.Url

/-! ### UTF-8 -/

theorem decodeUtf8_skip (n : Nat) (bytes : List UInt8) : decodeUtf8 n bytes = decodeUtf8 0 (bytes.drop n) := by
  induction n generalizing bytes with
  | zero => rfl
  | succ n ih =>
    cases bytes with
    | nil => rfl
    | cons b rest =>
      rw [decodeUtf8, ih]
      rfl

/-- Text is decoded as it was encoded. -/
theorem decodeUtf8_encodeUtf8 (s : List Char) : decodeUtf8 0 (encodeUtf8 s) = s := by
  induction s with
  | nil => rfl
  | cons c s ih =>
    have hdecoded : (encodeUtf8 (c :: s)).toByteArray.utf8DecodeChar? 0 = some c := List.utf8DecodeChar?_utf8Encode_cons
    have hbytes : encodeUtf8 (c :: s) = String.utf8EncodeChar c ++ encodeUtf8 s := List.flatMap_cons
    have hlength : (String.utf8EncodeChar c).length = c.utf8Size := String.length_utf8EncodeChar c
    have hpos := c.utf8Size_pos
    cases hchar : String.utf8EncodeChar c with
    | nil =>
      rw [hchar] at hlength
      simp at hlength
      omega
    | cons b more =>
      rw [hbytes, hchar, List.cons_append] at hdecoded
      rw [hchar, List.length_cons] at hlength
      have hskip : c.utf8Size - 1 = more.length := by omega
      rw [hbytes, hchar, List.cons_append, decodeUtf8, hdecoded]
      dsimp only
      rw [hskip, decodeUtf8_skip, List.drop_left, ih]

theorem decodeUtf8_ne_nil {bytes : List UInt8} (h : bytes ≠ []) : decodeUtf8 0 bytes ≠ [] := by
  cases bytes with
  | nil => exact absurd rfl h
  | cons b rest =>
    rw [decodeUtf8]
    split
    · exact List.cons_ne_nil _ _
    · exact List.cons_ne_nil _ _

/-! ### Escapes -/

theorem hexValue_hexDigit : ∀ n < 16, hexValue (hexDigit n) = some n := by decide

theorem hexDigit_safe : ∀ n < 16, isSafe (hexDigit n) = true := by decide

/-- A character that is written for another is safe, or one of the two marks. -/
theorem quoteChar_chars {c ch : Char} (h : ch ∈ quoteChar c) : ch = '+' ∨ ch = '%' ∨ isSafe ch = true := by
  unfold quoteChar at h
  split at h
  · exact .inl (List.mem_singleton.mp h)
  · split at h
    · rename_i hsafe
      exact .inr (.inr (List.mem_singleton.mp h ▸ hsafe))
    · obtain ⟨b, -, hb⟩ := List.mem_flatMap.mp h
      have hlt := b.toNat_lt
      simp only [quoteByte, List.mem_cons, List.not_mem_nil, or_false] at hb
      obtain rfl | rfl | rfl := hb
      · exact .inr (.inl rfl)
      · exact .inr (.inr (hexDigit_safe _ (by omega)))
      · exact .inr (.inr (hexDigit_safe _ (Nat.mod_lt _ (by decide))))

theorem quotePlus_chars {s : List Char} {ch : Char} (h : ch ∈ quotePlus s) : ch = '+' ∨ ch = '%' ∨ isSafe ch = true := by
  obtain ⟨c, -, hc⟩ := List.mem_flatMap.mp h
  exact quoteChar_chars hc

theorem notMem_quotePlus {s : List Char} {ch : Char} (hplus : ch ≠ '+') (hpercent : ch ≠ '%') (hsafe : isSafe ch = false) :
    ch ∉ quotePlus s := by
  intro h
  obtain rfl | rfl | h := quotePlus_chars h
  · exact hplus rfl
  · exact hpercent rfl
  · rw [hsafe] at h
    cases h

theorem ascii_of_isSafe {c : Char} (h : isSafe c = true) : c.val < 128 ∧ c ≠ '%' ∧ c ≠ '+' := by
  refine ⟨?_, ?_, ?_⟩
  · simp only [isSafe, isAlpha, isDigit, Bool.or_eq_true, Bool.and_eq_true, decide_eq_true_eq, beq_iff_eq] at h
    obtain (((((⟨-, hle⟩ | ⟨-, hle⟩) | ⟨-, hle⟩) | rfl) | rfl) | rfl) | rfl := h
    · exact UInt32.lt_of_le_of_lt hle (by decide)
    · exact UInt32.lt_of_le_of_lt hle (by decide)
    · exact UInt32.lt_of_le_of_lt hle (by decide)
    all_goals decide
  · rintro rfl
    exact absurd h (by decide)
  · rintro rfl
    exact absurd h (by decide)

/-- A plus sign stands for a space. -/
def unplus (s : List Char) : List Char := s.map fun c => if c = '+' then ' ' else c

theorem unquoteToBytes_cons {c : Char} (h : c ≠ '%') (rest : List Char) :
    unquoteToBytes (c :: rest) = UInt8.ofNat c.toNat :: unquoteToBytes rest := by
  rw [unquoteToBytes.eq_def]
  split
  · rename_i heq
    cases heq
    exact absurd rfl h
  · rename_i heq
    cases heq
    rfl
  · rename_i heq
    cases heq

theorem unquoteToBytes_quoteByte (b : UInt8) (rest : List Char) :
    unquoteToBytes (quoteByte b ++ rest) = b :: unquoteToBytes rest := by
  have hlt := b.toNat_lt
  show unquoteToBytes ('%' :: hexDigit (b.toNat / 16) :: hexDigit (b.toNat % 16) :: rest) = _
  rw [unquoteToBytes, hexValue_hexDigit _ (by omega), hexValue_hexDigit _ (Nat.mod_lt _ (by decide))]
  dsimp only
  rw [Nat.div_add_mod, UInt8.ofNat_toNat]

theorem unquoteToBytes_quoteBytes (bytes : List UInt8) (rest : List Char) :
    unquoteToBytes (bytes.flatMap quoteByte ++ rest) = bytes ++ unquoteToBytes rest := by
  induction bytes with
  | nil => rfl
  | cons b bytes ih => rw [List.flatMap_cons, List.append_assoc, unquoteToBytes_quoteByte, ih, List.cons_append]

theorem utf8EncodeChar_of_ascii {c : Char} (h : c.val < 128) : String.utf8EncodeChar c = [UInt8.ofNat c.toNat] := by
  have hsmall : c.val ≤ 0x7f := Nat.le_of_lt_succ h
  have hsize : c.utf8Size = 1 := by
    rw [Char.utf8Size]
    exact if_pos hsmall
  rw [String.utf8EncodeChar_eq_singleton hsize]
  rfl

/-- ASCII text takes a byte for each character. -/
theorem length_encodeUtf8_of_ascii {s : List Char} (h : isAscii s = true) : (encodeUtf8 s).length = s.length := by
  induction s with
  | nil => rfl
  | cons c s ih =>
    simp only [isAscii, List.all_cons, Bool.and_eq_true, decide_eq_true_eq] at h
    have hrest := ih h.2
    rw [encodeUtf8] at hrest
    rw [encodeUtf8, List.flatMap_cons, List.length_append, utf8EncodeChar_of_ascii h.1, hrest, List.length_singleton,
      List.length_cons, Nat.add_comm]

theorem unplus_quoteBytes (bytes : List UInt8) : unplus (bytes.flatMap quoteByte) = bytes.flatMap quoteByte := by
  refine (List.map_congr_left fun ch hch => ?_).trans (List.map_id _)
  obtain ⟨b, -, hb⟩ := List.mem_flatMap.mp hch
  have hlt := b.toNat_lt
  refine if_neg ?_
  simp only [quoteByte, List.mem_cons, List.not_mem_nil, or_false] at hb
  obtain rfl | rfl | rfl := hb
  · decide
  · exact (ascii_of_isSafe (hexDigit_safe _ (by omega))).2.2
  · exact (ascii_of_isSafe (hexDigit_safe _ (Nat.mod_lt _ (by decide)))).2.2

/-- Every character gives back its own bytes. -/
theorem unquoteToBytes_quoteChar (c : Char) (rest : List Char) :
    unquoteToBytes (unplus (quoteChar c) ++ rest) = String.utf8EncodeChar c ++ unquoteToBytes rest := by
  unfold quoteChar
  split
  · rename_i hspace
    rw [hspace, utf8EncodeChar_of_ascii (by decide)]
    exact unquoteToBytes_cons (by decide) rest
  · split
    · rename_i hsafe
      obtain ⟨hascii, hpercent, hplus⟩ := ascii_of_isSafe hsafe
      have hsame : unplus [c] = [c] := congrArg ([·]) (if_neg hplus)
      rw [hsame, utf8EncodeChar_of_ascii hascii]
      exact unquoteToBytes_cons hpercent rest
    · rw [unplus_quoteBytes, unquoteToBytes_quoteBytes]

theorem unquoteToBytes_quotePlus (s : List Char) : unquoteToBytes (unplus (quotePlus s)) = encodeUtf8 s := by
  induction s with
  | nil => rfl
  | cons c s ih =>
    have hsplit : unplus (quotePlus (c :: s)) = unplus (quoteChar c) ++ unplus (quotePlus s) := List.map_append
    rw [hsplit, unquoteToBytes_quoteChar, ih]
    rfl

/-- A text of ASCII characters is one run. -/
theorem unquoteFrom_ascii {run s : List Char} (h : isAscii s = true) :
    unquoteFrom run s = decodeUtf8 0 (unquoteToBytes (run.reverse ++ s)) := by
  induction s generalizing run with
  | nil => rw [unquoteFrom, List.append_nil]
  | cons c s ih =>
    rw [isAscii, List.all_cons, Bool.and_eq_true, decide_eq_true_eq] at h
    rw [unquoteFrom, if_pos h.1, ih h.2, List.reverse_cons, List.append_assoc]
    rfl

/-- **What was quoted is read back.** -/
theorem unquotePlus_quotePlus (s : List Char) : unquotePlus (quotePlus s) = s := by
  have hascii : isAscii (unplus (quotePlus s)) = true := by
    refine List.all_eq_true.mpr fun ch hch => ?_
    obtain ⟨c, hc, rfl⟩ := List.mem_map.mp hch
    rw [decide_eq_true_eq]
    obtain rfl | rfl | hsafe := quotePlus_chars hc
    · decide
    · decide
    · rw [if_neg (ascii_of_isSafe hsafe).2.2]
      exact (ascii_of_isSafe hsafe).1
  show unquoteFrom [] (unplus (quotePlus s)) = s
  rw [unquoteFrom_ascii hascii, List.reverse_nil, List.nil_append, unquoteToBytes_quotePlus, decodeUtf8_encodeUtf8]

theorem unquoteToBytes_ne_nil {s : List Char} (h : s ≠ []) : unquoteToBytes s ≠ [] := by
  cases s with
  | nil => exact absurd rfl h
  | cons c rest =>
    rw [unquoteToBytes.eq_def]
    split
    · split <;> exact List.cons_ne_nil _ _
    · exact List.cons_ne_nil _ _
    · rename_i heq
      cases heq

theorem unquoteFrom_ne_nil {run s : List Char} (h : run ≠ [] ∨ s ≠ []) : unquoteFrom run s ≠ [] := by
  induction s generalizing run with
  | nil =>
    have hrun : run ≠ [] := h.resolve_right fun hne => hne rfl
    rw [unquoteFrom]
    exact decodeUtf8_ne_nil (unquoteToBytes_ne_nil (by simpa using hrun))
  | cons c rest ih =>
    rw [unquoteFrom]
    split
    · exact ih (.inl (List.cons_ne_nil _ _))
    · simp

theorem unquotePlus_ne_nil {s : List Char} (h : s ≠ []) : unquotePlus s ≠ [] :=
  unquoteFrom_ne_nil (.inr (by simpa using h))

/-! ### Pairs -/

theorem quotePlus_ne_nil {s : List Char} (h : s ≠ []) : quotePlus s ≠ [] := by
  intro hnil
  have hback := unquotePlus_quotePlus s
  rw [hnil] at hback
  exact h hback.symm

theorem parsePair_ne_nil {piece : List Char} {pair : List Char × List Char} (h : parsePair piece = some pair) :
    pair.2 ≠ [] := by
  unfold parsePair at h
  split at h
  · cases h
  · rename_i hvalue
    cases h
    exact unquotePlus_ne_nil (by simpa using hvalue)

theorem name_writePair (pair : List Char × List Char) :
    before '=' (writePair pair) = quotePlus pair.1 ∧ after '=' (writePair pair) = quotePlus pair.2 :=
  before_append_cons (notMem_quotePlus (by decide) (by decide) (by decide)) _

/-- A pair with a value is read as it was written. -/
theorem parsePair_writePair {pair : List Char × List Char} (h : pair.2 ≠ []) : parsePair (writePair pair) = some pair := by
  obtain ⟨hname, hvalue⟩ := name_writePair pair
  have hne : (quotePlus pair.2).isEmpty = false := by
    rw [Bool.eq_false_iff, ne_eq, List.isEmpty_iff]
    exact quotePlus_ne_nil h
  rw [parsePair, hname, hvalue, hne, unquotePlus_quotePlus, unquotePlus_quotePlus]
  rfl

theorem amp_notMem_writePair (pair : List Char × List Char) : '&' ∉ writePair pair := by
  have hno : ∀ s : List Char, '&' ∉ quotePlus s := fun s => notMem_quotePlus (by decide) (by decide) (by decide)
  intro hmem
  obtain hmem | hmem := List.mem_append.mp hmem
  · exact hno _ hmem
  · exact hno _ ((List.mem_cons.mp hmem).resolve_left (by decide))

/-- The pieces of a query that was written. -/
theorem splitOn_urlencode {pairs : List (List Char × List Char)} (h : pairs ≠ []) :
    (urlencode pairs).splitOn '&' = pairs.map writePair := by
  have hplain : ∀ pair : List Char × List Char, ∀ ch ∈ writePair pair, (ch == '&') = false := by
    intro pair ch hch
    rw [beq_eq_false_iff_ne]
    rintro rfl
    exact amp_notMem_writePair pair hch
  induction pairs with
  | nil => exact absurd rfl h
  | cons pair rest ih =>
    cases rest with
    | nil =>
      rw [urlencode_singleton, List.splitOn_eq_splitOnP, List.splitOnP_eq_singleton (hplain pair)]
      rfl
    | cons next rest =>
      rw [urlencode_cons, List.splitOn_eq_splitOnP,
        List.splitOnP_append_cons_of_forall_mem (hplain pair) '&' rfl, ← List.splitOn_eq_splitOnP, ih (by simp)]
      rfl

/-- **Pairs with values are read as they were written.** -/
theorem parseQsl_urlencode {pairs : List (List Char × List Char)} (h : ∀ pair ∈ pairs, pair.2 ≠ []) :
    parseQsl (urlencode pairs) = pairs := by
  by_cases hnil : pairs = []
  · rw [hnil]
    rfl
  · rw [parseQsl, splitOn_urlencode hnil, List.filterMap_map]
    refine (List.filterMap_congr fun pair hpair => ?_).trans List.filterMap_some
    exact parsePair_writePair (h pair hpair)

theorem writePair_ne_nil (pair : List Char × List Char) : writePair pair ≠ [] := by
  simp [writePair]

/-- Pairs are read as they were written, with values or without, if blank ones are kept. -/
theorem parseQslKeeping_urlencode (pairs : List (List Char × List Char)) : parseQslKeeping (urlencode pairs) = pairs := by
  by_cases hnil : pairs = []
  · rw [hnil]
    rfl
  · rw [parseQslKeeping, splitOn_urlencode hnil, List.filter_eq_self.mpr, List.map_map]
    · refine (List.map_congr_left fun pair _ => ?_).trans (List.map_id _)
      obtain ⟨hname, hvalue⟩ := name_writePair pair
      show (unquotePlus (before '=' (writePair pair)), unquotePlus (after '=' (writePair pair))) = pair
      rw [hname, hvalue, unquotePlus_quotePlus, unquotePlus_quotePlus]
    · intro piece hpiece
      obtain ⟨pair, -, rfl⟩ := List.mem_map.mp hpiece
      simpa using writePair_ne_nil pair

/-- Pairs are told apart by as many signs as there are pairs after the first. -/
theorem count_urlencode (pair : List Char × List Char) (rest : List (List Char × List Char)) :
    (urlencode (pair :: rest)).count '&' = rest.length := by
  induction rest generalizing pair with
  | nil =>
    rw [urlencode_singleton]
    exact List.count_eq_zero.mpr (amp_notMem_writePair pair)
  | cons next rest ih =>
    rw [urlencode_cons, List.count_append, List.count_cons_self, ih next, List.count_eq_zero.mpr (amp_notMem_writePair pair),
      List.length_cons, Nat.zero_add]

/-- The room a query takes behind its path: each pair with its sign and what is before it. -/
theorem length_withQuery_urlencode (pairs : List (List Char × List Char)) :
    (withQuery (urlencode pairs)).length =
      (pairs.map fun pair => (quotePlus pair.1).length + (quotePlus pair.2).length + 2).sum := by
  have hpair : ∀ pair : List Char × List Char,
      (writePair pair).length = (quotePlus pair.1).length + (quotePlus pair.2).length + 1 := by
    intro pair
    rw [writePair, List.length_append, List.length_cons]
    omega
  have hjoined : ∀ pair (rest : List (List Char × List Char)), (urlencode (pair :: rest)).length + 1 =
      ((pair :: rest).map fun pair => (quotePlus pair.1).length + (quotePlus pair.2).length + 2).sum := by
    intro pair rest
    induction rest generalizing pair with
    | nil =>
      rw [urlencode_singleton, hpair, List.map_singleton, List.sum_singleton]
    | cons next rest ih =>
      rw [urlencode_cons, List.map_cons, List.sum_cons, ← ih next, List.length_append, List.length_cons, hpair]
      omega
  cases pairs with
  | nil => rfl
  | cons pair rest =>
    rw [← hjoined pair rest, withQuery]
    split
    · rename_i hempty
      have hshort := hjoined pair rest
      rw [List.isEmpty_iff.mp hempty, List.map_cons, List.sum_cons] at hshort
      simp only [List.length_nil] at hshort
      omega
    · exact List.length_cons

/-- What a written query consists of. -/
theorem urlencode_chars {pairs : List (List Char × List Char)} {ch : Char} (h : ch ∈ urlencode pairs) :
    ch = '&' ∨ ch = '=' ∨ ch = '+' ∨ ch = '%' ∨ isSafe ch = true := by
  have hpair : ∀ pair : List Char × List Char, ch ∈ writePair pair → ch = '=' ∨ ch = '+' ∨ ch = '%' ∨ isSafe ch = true := by
    intro pair hmem
    obtain hmem | hmem := List.mem_append.mp hmem
    · exact .inr (quotePlus_chars hmem)
    · obtain hch | hmem := List.mem_cons.mp hmem
      · exact .inl hch
      · exact .inr (quotePlus_chars hmem)
  induction pairs with
  | nil => cases h
  | cons pair rest ih =>
    cases rest with
    | nil => exact .inr (hpair pair (urlencode_singleton pair ▸ h))
    | cons next rest =>
      rw [urlencode_cons] at h
      obtain h | h := List.mem_append.mp h
      · exact .inr (hpair pair h)
      · obtain hch | h := List.mem_cons.mp h
        · exact .inl hch
        · exact ih h

/-- A query as `urlencode` writes one: pairs with values, in its spelling. -/
def Written (query : List Char) : Prop := ∃ pairs, (∀ pair ∈ pairs, pair.2 ≠ []) ∧ query = urlencode pairs

theorem parseQsl_ne_nil (query : List Char) : ∀ pair ∈ parseQsl query, pair.2 ≠ [] := by
  intro pair hpair
  obtain ⟨piece, -, hpiece⟩ := List.mem_filterMap.mp hpair
  exact parsePair_ne_nil hpiece

end Lib.Url
