import Mathlib.Tactic.Ring
import Fetech.Lib.Text

/-! UTF-8 as Python's codec reads and writes it.

Bytes are taken one at a time, with what is still expected of a character that was begun. What
does not go on as it should is one undecodable piece, and the byte at which that shows begins
anew; a strict reader raises at the first, another writes U+FFFD for each. What was encoded is
decoded to what it was (`decode_encode`), and no surrogate ever comes out (`not_surrogate`). -/
namespace Lib.Utf8

/-- The bytes of a character, but for surrogates. -/
def bytesOf (c : CodePoint) : List UInt8 :=
  let n := c.val
  if n < 0x80 then [UInt8.ofNat n]
  else if n < 0x800 then [UInt8.ofNat (0xc0 + n / 64), UInt8.ofNat (0x80 + n % 64)]
  else if n < 0x10000 then
    [UInt8.ofNat (0xe0 + n / 4096), UInt8.ofNat (0x80 + n / 64 % 64), UInt8.ofNat (0x80 + n % 64)]
  else
    [UInt8.ofNat (0xf0 + n / 262144), UInt8.ofNat (0x80 + n / 4096 % 64), UInt8.ofNat (0x80 + n / 64 % 64),
      UInt8.ofNat (0x80 + n % 64)]

/-- `s.encode("utf-8")`; `none` is the `UnicodeEncodeError`. -/
def encode (s : Text) : Option (List UInt8) := if Text.encodable s then some (s.flatMap bytesOf) else none

/-- A character that was begun: how many bytes it still needs, between which the next has to be,
and the bits so far. -/
structure Pending where
  needed : Nat
  low : Nat
  high : Nat
  bits : Nat

def idle : Pending := ⟨0, 0, 0, 0⟩

/-- What the first byte of a character gives at once, and what is expected after it. -/
def lead (b : Nat) : List (Option CodePoint) × Pending :=
  if b < 0x80 then ([some (Fin.ofNat 0x110000 b)], idle)
  else if 0xc2 ≤ b ∧ b < 0xe0 then ([], ⟨1, 0x80, 0xbf, b - 0xc0⟩)
  else if 0xe0 ≤ b ∧ b < 0xf0 then
    ([], ⟨2, if b = 0xe0 then 0xa0 else 0x80, if b = 0xed then 0x9f else 0xbf, b - 0xe0⟩)
  else if 0xf0 ≤ b ∧ b < 0xf5 then
    ([], ⟨3, if b = 0xf0 then 0x90 else 0x80, if b = 0xf4 then 0x8f else 0xbf, b - 0xf0⟩)
  else ([none], idle)

/-- What a byte gives at once, and what is expected after it. -/
def next (p : Pending) (b : Nat) : List (Option CodePoint) × Pending :=
  if p.needed = 0 then lead b
  else if p.low ≤ b ∧ b ≤ p.high then
    let bits := p.bits * 64 + (b - 0x80)
    if p.needed = 1 then ([some (Fin.ofNat 0x110000 bits)], idle) else ([], ⟨p.needed - 1, 0x80, 0xbf, bits⟩)
  else (none :: (lead b).1, (lead b).2)

/-- The characters of bytes, `none` for an undecodable piece. -/
def pieces (p : Pending) : List UInt8 → List (Option CodePoint)
  | [] => if p.needed = 0 then [] else [none]
  | b :: rest => (next p b.toNat).1 ++ pieces (next p b.toNat).2 rest

/-- What `utf-8-sig` leaves out. -/
def withoutMark (bytes : List UInt8) : List UInt8 := if [0xef, 0xbb, 0xbf].isPrefixOf bytes then bytes.drop 3 else bytes

/-- `bytes.decode("utf-8")`; `none` is the `UnicodeDecodeError`. -/
def decode (bytes : List UInt8) : Option Text := (pieces idle bytes).mapM id

/-- The characters of bytes, surrogates among them. -/
def piecesWithSurrogates (p : Pending) : List UInt8 → List (Option CodePoint)
  | [] => if p.needed = 0 then [] else [none]
  | b :: rest =>
    let step := if p.needed = 0 ∧ b = 0xed then ([], ⟨2, 0x80, 0xbf, 0xd⟩) else next p b.toNat
    step.1 ++ piecesWithSurrogates step.2 rest

/-- `bytes.decode("utf-8", errors="surrogatepass")`: surrogates are let through where there are any. -/
def decodeSurrogatePass (bytes : List UInt8) : Option Text :=
  (decode bytes).or ((piecesWithSurrogates idle bytes).mapM id)

/-- Whether a surrogate stands for a byte that could not be decoded. -/
def isEscape (c : CodePoint) : Bool := 0xdc80 ≤ c.val && c.val < 0xdd00

/-- `s.encode("utf-8", errors="surrogateescape")` -/
def encodeSurrogateEscape (s : Text) : Option (List UInt8) :=
  if s.all fun c => isEscape c || !c.isSurrogate then
    some (s.flatMap fun c => if isEscape c then [UInt8.ofNat (c.val - 0xdc00)] else bytesOf c)
  else none

/-- `bytes.decode("utf-8", errors="replace")` -/
def decodeReplace (bytes : List UInt8) : Text := (pieces idle bytes).map (·.getD 0xfffd)

/-- `bytes.decode("utf-8", errors="ignore")` -/
def decodeIgnore (bytes : List UInt8) : Text := (pieces idle bytes).filterMap id

/-! ### What was encoded is decoded -/

theorem toNat_ofNat {n : Nat} (h : n < 256) : (UInt8.ofNat n).toNat = n := by
  rw [UInt8.toNat_ofNat']
  exact Nat.mod_eq_of_lt h

/-- A byte that goes on with a character. -/
theorem next_go {p : Pending} {b : Nat} (hneeded : 1 < p.needed) (hb : p.low ≤ b ∧ b ≤ p.high) :
    next p b = ([], ⟨p.needed - 1, 0x80, 0xbf, p.bits * 64 + (b - 0x80)⟩) := by
  rw [next, if_neg (by omega), if_pos hb, if_neg (by omega)]

/-- The last byte of a character. -/
theorem next_last {p : Pending} {b : Nat} (hneeded : p.needed = 1) (hb : p.low ≤ b ∧ b ≤ p.high) :
    next p b = ([some (Fin.ofNat 0x110000 (p.bits * 64 + (b - 0x80)))], idle) := by
  rw [next, if_neg (by omega), if_pos hb, if_pos hneeded]

theorem pieces_cons {p : Pending} {b : Nat} (hb : b < 256) (rest : List UInt8) :
    pieces p (UInt8.ofNat b :: rest) = (next p b).1 ++ pieces (next p b).2 rest := by
  rw [pieces, toNat_ofNat hb]

theorem lead_two {b : Nat} (h : 0xc2 ≤ b ∧ b < 0xe0) : next idle b = ([], ⟨1, 0x80, 0xbf, b - 0xc0⟩) := by
  show lead b = _
  rw [lead, if_neg (by omega), if_pos h]

theorem lead_three {b : Nat} (h : 0xe0 ≤ b ∧ b < 0xf0) :
    next idle b = ([], ⟨2, if b = 0xe0 then 0xa0 else 0x80, if b = 0xed then 0x9f else 0xbf, b - 0xe0⟩) := by
  show lead b = _
  rw [lead, if_neg (by omega), if_neg (by omega), if_pos h]

theorem lead_four {b : Nat} (h : 0xf0 ≤ b ∧ b < 0xf5) :
    next idle b = ([], ⟨3, if b = 0xf0 then 0x90 else 0x80, if b = 0xf4 then 0x8f else 0xbf, b - 0xf0⟩) := by
  show lead b = _
  rw [lead, if_neg (by omega), if_neg (by omega), if_neg (by omega), if_pos h]

/-- The bytes of a character give it, and nothing is left of them. -/
theorem pieces_bytesOf {c : CodePoint} (h : c.isSurrogate = false) (rest : List UInt8) :
    pieces idle (bytesOf c ++ rest) = some c :: pieces idle rest := by
  have hc := c.isLt
  have hvalid : c.val < 0xd800 ∨ 0xe000 ≤ c.val := by
    simp only [CodePoint.isSurrogate, Bool.and_eq_false_iff, decide_eq_false_iff_not] at h
    omega
  have hback : ∀ n, n = c.val → (Fin.ofNat 0x110000 n : CodePoint) = c := by
    intro n hn
    rw [hn, Fin.ofNat_val_eq_self]
  unfold bytesOf
  dsimp only
  split
  · have hlead : next idle c.val = ([some (Fin.ofNat 0x110000 c.val)], idle) := by
      show lead c.val = _
      rw [lead, if_pos ‹_›]
    rw [List.cons_append, List.nil_append, pieces_cons (by omega), hlead, hback _ rfl, List.singleton_append]
  · split
    · rw [List.cons_append, List.cons_append, List.nil_append, pieces_cons (by omega), pieces_cons (by omega),
        lead_two (by omega), next_last rfl (by constructor <;> dsimp only <;> omega), hback _ (by dsimp only; omega)]
      rfl
    · split
      · have hrange : (if 0xe0 + c.val / 4096 = 0xe0 then 0xa0 else 0x80) ≤ 0x80 + c.val / 64 % 64 ∧
            0x80 + c.val / 64 % 64 ≤ if 0xe0 + c.val / 4096 = 0xed then 0x9f else 0xbf := by
          constructor
          · split <;> omega
          · split <;> omega
        rw [List.cons_append, List.cons_append, List.cons_append, List.nil_append, pieces_cons (by omega),
          pieces_cons (by omega), pieces_cons (by omega), lead_three (by omega), next_go (by dsimp only; omega) hrange,
          next_last rfl (by constructor <;> dsimp only <;> omega), hback _ (by dsimp only; omega)]
        rfl
      · have hrange : (if 0xf0 + c.val / 262144 = 0xf0 then 0x90 else 0x80) ≤ 0x80 + c.val / 4096 % 64 ∧
            0x80 + c.val / 4096 % 64 ≤ if 0xf0 + c.val / 262144 = 0xf4 then 0x8f else 0xbf := by
          constructor
          · split <;> omega
          · split <;> omega
        rw [List.cons_append, List.cons_append, List.cons_append, List.cons_append, List.nil_append, pieces_cons (by omega),
          pieces_cons (by omega), pieces_cons (by omega), pieces_cons (by omega), lead_four (by omega),
          next_go (by dsimp only; omega) hrange, next_go (by dsimp only; omega) (by constructor <;> dsimp only <;> omega),
          next_last rfl (by constructor <;> dsimp only <;> omega), hback _ (by dsimp only; omega)]
        rfl

theorem pieces_flatMap {s : Text} (h : Text.encodable s = true) : pieces idle (s.flatMap bytesOf) = s.map some := by
  induction s with
  | nil => rfl
  | cons c s ih =>
    rw [Text.encodable, List.all_cons, Bool.and_eq_true, Bool.not_eq_true'] at h
    rw [List.flatMap_cons, pieces_bytesOf h.1, ih h.2, List.map_cons]

theorem mapM_some (s : Text) : (s.map some).mapM id = some s := by
  induction s with
  | nil => rfl
  | cons c s ih =>
    rw [List.map_cons, List.mapM_cons, ih]
    rfl

/-- **What was encoded is decoded to what it was.** -/
theorem decode_encode {s : Text} {bytes : List UInt8} (h : encode s = some bytes) : decode bytes = some s := by
  unfold encode at h
  split at h
  · rename_i hs
    cases h
    rw [decode, pieces_flatMap hs, mapM_some]
  · cases h

theorem decodeSurrogatePass_encode {s : Text} {bytes : List UInt8} (h : encode s = some bytes) :
    decodeSurrogatePass bytes = some s := by
  rw [decodeSurrogatePass, decode_encode h]
  rfl

/-- Where nothing is escaped, the handler makes no difference. -/
theorem encodeSurrogateEscape_eq {s : Text} (h : ∀ c ∈ s, isEscape c = false) : encodeSurrogateEscape s = encode s := by
  have hall : (s.all fun c => isEscape c || !c.isSurrogate) = Text.encodable s := by
    rw [Text.encodable, Bool.eq_iff_iff, List.all_eq_true, List.all_eq_true]
    exact forall₂_congr fun c hc => by rw [h c hc, Bool.false_or]
  have hbytes : (s.flatMap fun c => if isEscape c then [UInt8.ofNat (c.val - 0xdc00)] else bytesOf c) = s.flatMap bytesOf := by
    refine List.flatMap_congr fun c hc => ?_
    rw [h c hc, if_neg Bool.false_ne_true]
  rw [encodeSurrogateEscape, encode, hall, hbytes]

theorem length_bytesOf (c : CodePoint) : (bytesOf c).length = c.utf8Size := by
  unfold bytesOf CodePoint.utf8Size
  dsimp only
  split
  · rfl
  · split
    · rfl
    · split
      · rfl
      · rfl

theorem length_encode {s : Text} {bytes : List UInt8} (h : encode s = some bytes) : bytes.length = Text.utf8Length s := by
  unfold encode at h
  split at h
  · cases h
    rw [List.length_flatMap, Text.utf8Length, List.map_congr_left fun c _ => length_bytesOf c]
  · cases h

/-! ### No surrogates -/

/-- The values that are left to a character by its last bytes. -/
def width : Nat → Nat
  | 3 => 4096
  | 2 => 64
  | _ => 1

/-- What a pending character can come to is no surrogate. -/
structure Sound (p : Pending) : Prop where
  needed : p.needed ≤ 3
  low : p.needed ≠ 0 → 0x80 ≤ p.low ∧ p.high ≤ 0xbf
  values : p.needed ≠ 0 → (p.bits * 64 + (p.high - 0x80) + 1) * width p.needed ≤ 0xd800 ∨
    0xe000 ≤ (p.bits * 64 + (p.low - 0x80)) * width p.needed ∧
      (p.bits * 64 + (p.high - 0x80) + 1) * width p.needed ≤ 0x110000

/-- What may come out: an undecodable piece, or a character that is no surrogate. -/
def Plain (piece : Option CodePoint) : Prop := ∀ c ∈ piece, c.isSurrogate = false

theorem sound_idle : Sound idle := ⟨by decide, by decide, by decide⟩

theorem plain_ofNat {n : Nat} (h : n < 0xd800 ∨ 0xe000 ≤ n ∧ n < 0x110000) : Plain (some (Fin.ofNat 0x110000 n)) := by
  intro c hc
  cases hc
  have hval : (Fin.ofNat 0x110000 n).val = n := Nat.mod_eq_of_lt (by omega)
  simp only [CodePoint.isSurrogate, hval, Bool.and_eq_false_iff, decide_eq_false_iff_not]
  omega

theorem plain_none : Plain none := nofun

theorem sound_mk {needed low high bits : Nat} (hneeded : needed ≤ 3) (hrange : 0x80 ≤ low ∧ high ≤ 0xbf)
    (hvalues : (bits * 64 + (high - 0x80) + 1) * width needed ≤ 0xd800 ∨
      0xe000 ≤ (bits * 64 + (low - 0x80)) * width needed ∧ (bits * 64 + (high - 0x80) + 1) * width needed ≤ 0x110000) :
    Sound ⟨needed, low, high, bits⟩ :=
  ⟨hneeded, fun _ => hrange, fun _ => hvalues⟩

theorem sound_lead (b : Nat) : Sound (lead b).2 ∧ ∀ piece ∈ (lead b).1, Plain piece := by
  unfold lead
  split
  · exact ⟨sound_idle, fun piece hpiece => by rw [List.mem_singleton.mp hpiece]; exact plain_ofNat (by omega)⟩
  · split
    · exact ⟨sound_mk (by omega) (by omega) (by simp only [width]; omega), nofun⟩
    · split
      · refine ⟨sound_mk (by omega) ?_ ?_, nofun⟩
        · split <;> split <;> omega
        · simp only [width]
          split <;> split <;> omega
      · split
        · refine ⟨sound_mk (by omega) ?_ ?_, nofun⟩
          · split <;> split <;> omega
          · simp only [width]
            split <;> split <;> omega
        · exact ⟨sound_idle, fun piece hpiece => by rw [List.mem_singleton.mp hpiece]; exact plain_none⟩

/-- One byte more leaves fewer values. -/
theorem values_narrow {w first last bits : Nat}
    (h : (last + 1) * (64 * w) ≤ 0xd800 ∨ 0xe000 ≤ first * (64 * w) ∧ (last + 1) * (64 * w) ≤ 0x110000) (hfirst : first ≤ bits)
    (hlast : bits ≤ last) : (bits * 64 + (0xbf - 0x80) + 1) * w ≤ 0xd800 ∨
      0xe000 ≤ (bits * 64 + (0x80 - 0x80)) * w ∧ (bits * 64 + (0xbf - 0x80) + 1) * w ≤ 0x110000 := by
  have hhigh : (bits * 64 + (0xbf - 0x80) + 1) * w = (bits + 1) * (64 * w) := by ring
  have hlow : (bits * 64 + (0x80 - 0x80)) * w = bits * (64 * w) := by ring
  have hle : (bits + 1) * (64 * w) ≤ (last + 1) * (64 * w) := Nat.mul_le_mul_right _ (Nat.succ_le_succ hlast)
  have hge : first * (64 * w) ≤ bits * (64 * w) := Nat.mul_le_mul_right _ hfirst
  rw [hhigh, hlow]
  obtain h | ⟨h, h'⟩ := h
  · exact .inl (hle.trans h)
  · exact .inr ⟨h.trans hge, hle.trans h'⟩

theorem sound_next {p : Pending} (h : Sound p) (b : Nat) : Sound (next p b).2 ∧ ∀ piece ∈ (next p b).1, Plain piece := by
  obtain ⟨hlead, hpieces⟩ := sound_lead b
  by_cases hzero : p.needed = 0
  · rw [next, if_pos hzero]
    exact ⟨hlead, hpieces⟩
  by_cases hb : p.low ≤ b ∧ b ≤ p.high
  · have hlow := h.low hzero
    have hvalues := h.values hzero
    have hneeded := h.needed
    by_cases hone : p.needed = 1
    · rw [hone] at hvalues
      simp only [width] at hvalues
      rw [next_last hone hb]
      exact ⟨sound_idle, fun piece hpiece => by rw [List.mem_singleton.mp hpiece]; exact plain_ofNat (by omega)⟩
    · have hwidth : width p.needed = 64 * width (p.needed - 1) := by
        obtain htwo | hthree : p.needed = 2 ∨ p.needed = 3 := by omega
        · rw [htwo]
          rfl
        · rw [hthree]
          rfl
      rw [hwidth] at hvalues
      rw [next_go (by omega) hb]
      exact ⟨sound_mk (by omega) (by omega) (values_narrow hvalues (by omega) (by omega)), nofun⟩
  · rw [next, if_neg hzero, if_neg hb]
    exact ⟨hlead, List.forall_mem_cons.mpr ⟨plain_none, hpieces⟩⟩

theorem plain_pieces {p : Pending} (h : Sound p) (bytes : List UInt8) : ∀ piece ∈ pieces p bytes, Plain piece := by
  induction bytes generalizing p with
  | nil =>
    intro piece hpiece
    rw [pieces] at hpiece
    split at hpiece
    · cases hpiece
    · rw [List.mem_singleton.mp hpiece]
      exact plain_none
  | cons b rest ih =>
    obtain ⟨hnext, hpieces⟩ := sound_next h b.toNat
    intro piece hpiece
    obtain hpiece | hpiece := List.mem_append.mp hpiece
    · exact hpieces piece hpiece
    · exact ih hnext piece hpiece

/-- **What is decoded can be encoded**, with replacement. -/
theorem encodable_decodeReplace (bytes : List UInt8) : Text.encodable (decodeReplace bytes) = true := by
  rw [Text.encodable, List.all_eq_true]
  intro c hc
  obtain ⟨piece, hpiece, rfl⟩ := List.mem_map.mp hc
  have hplain := plain_pieces sound_idle bytes piece hpiece
  rw [Bool.not_eq_true']
  cases piece with
  | none => rfl
  | some c => exact hplain c rfl

end Lib.Utf8
