import Fetech.Lib.JsonRoundtrip

/-! Which JSON text can be encoded.

Without `ensure_ascii` a surrogate is written as itself, and all else that is escaped is escaped in
ASCII. So the text of a value has an encoding exactly when all strings in it have. -/
namespace Lib.JsonText

variable {φ : Type} {f : Floats φ}

theorem encodable_append {s t : Text} : Text.encodable (s ++ t) = true ↔ Text.encodable s = true ∧ Text.encodable t = true := by
  simp [Text.encodable]

theorem encodable_cons {c : CodePoint} {s : Text} :
    Text.encodable (c :: s) = true ↔ c.isSurrogate = false ∧ Text.encodable s = true := by
  simp [Text.encodable]

theorem encodable_intercalate {sep : CodePoint} (hsep : sep.isSurrogate = false) (pieces : List Text) :
    Text.encodable ([sep].intercalate pieces) = true ↔ ∀ piece ∈ pieces, Text.encodable piece = true := by
  induction pieces with
  | nil => simp [Text.encodable]
  | cons piece rest ih =>
    cases rest with
    | nil => simp
    | cons next rest =>
      rw [List.intercalate_cons_cons, encodable_append, encodable_append, ih, List.forall_mem_cons (l := next :: rest)]
      simp [Text.encodable, hsep]

theorem hexDigit_plain {n : Nat} (h : n < 16) : (hexDigit n).isSurrogate = false := by
  unfold hexDigit CodePoint.isSurrogate
  split
  · have hval : (Fin.ofNat 0x110000 (0x30 + n)).val = 0x30 + n := Nat.mod_eq_of_lt (by omega)
    rw [hval, Bool.and_eq_false_iff, decide_eq_false_iff_not]
    exact .inl (by omega)
  · have hval : (Fin.ofNat 0x110000 (0x57 + n)).val = 0x57 + n := Nat.mod_eq_of_lt (by omega)
    rw [hval, Bool.and_eq_false_iff, decide_eq_false_iff_not]
    exact .inl (by omega)

theorem encodable_unitEscape (n : Nat) : Text.encodable (unitEscape n) = true := by
  have hdigit : ∀ m, (hexDigit (m % 16)).isSurrogate = false := fun m => hexDigit_plain (Nat.mod_lt _ (by decide))
  simp only [unitEscape, encodable_cons, hdigit]
  exact ⟨rfl, rfl, trivial, trivial, trivial, trivial, rfl⟩

theorem letters_plain : ∀ pair ∈ letters, pair.1.isSurrogate = false ∧ pair.2.isSurrogate = false := by
  simp [letters, CodePoint.isSurrogate]

/-- Only a surrogate has an escape that cannot be encoded: itself. -/
theorem encodable_escape (c : CodePoint) : Text.encodable (escape false c) = true ↔ c.isSurrogate = false := by
  unfold escape
  cases hc : letters.lookup c with
  | some letter =>
    obtain ⟨front, back, heq, -⟩ := List.lookup_eq_some_iff.mp hc
    obtain ⟨hplain, hletter⟩ := letters_plain (c, letter) (heq ▸ List.mem_append_right _ List.mem_cons_self)
    simp only [encodable_cons, hletter, hplain, iff_true]
    exact ⟨rfl, trivial, rfl⟩
  | none =>
    simp only [mustEscape, Bool.false_and, Bool.or_false, Bool.not_eq_true', decide_eq_false_iff_not]
    split
    · simp [Text.encodable]
    · rename_i hcontrol
      have hplain : c.isSurrogate = false := by
        rw [CodePoint.isSurrogate, Bool.and_eq_false_iff, decide_eq_false_iff_not]
        exact .inl (by omega)
      rw [if_pos (by omega), encodable_unitEscape, hplain]
      exact iff_of_true rfl rfl

theorem encodable_writeString (s : Text) : Text.encodable (writeString false s) = true ↔ Text.encodable s = true := by
  have hflat : Text.encodable (s.flatMap (escape false)) = true ↔ Text.encodable s = true := by
    induction s with
    | nil => simp
    | cons c s ih => rw [List.flatMap_cons, encodable_append, encodable_escape, ih, encodable_cons]
  rw [writeString, encodable_append, encodable_cons, hflat]
  simp [Text.encodable, quote, CodePoint.isSurrogate]

theorem encodable_of_isDigit {s : Text} (h : ∀ c ∈ s, isDigit c = true) : Text.encodable s = true := by
  rw [Text.encodable, List.all_eq_true]
  intro c hc
  have hdigit := h c hc
  simp only [isDigit, Bool.and_eq_true, decide_eq_true_eq] at hdigit
  simp only [CodePoint.isSurrogate, Bool.not_eq_true', Bool.and_eq_false_iff, decide_eq_false_iff_not]
  omega

theorem encodable_writeInt (n : Int) : Text.encodable (writeInt n) = true := by
  cases n with
  | ofNat n => exact encodable_of_isDigit (whole_writeNat n).1.2
  | negSucc n => exact encodable_cons.mpr ⟨rfl, encodable_of_isDigit (whole_writeNat (n + 1)).1.2⟩

theorem FloatText.encodable {t : Text} (h : FloatText t) : Text.encodable t = true := by
  obtain ⟨sign, whole, fraction, exponent, rfl, hsign, hwhole, hfraction, hexponent, -⟩ := h.shape
  refine encodable_append.mpr ⟨encodable_append.mpr ⟨encodable_append.mpr ⟨?_, encodable_of_isDigit hwhole.1.2⟩, ?_⟩, ?_⟩
  · obtain rfl | rfl := hsign <;> rfl
  · obtain rfl | ⟨digits, hdigits, rfl⟩ := hfraction
    · rfl
    · exact encodable_cons.mpr ⟨rfl, encodable_of_isDigit hdigits.2⟩
  · obtain rfl | ⟨sign, digits, hdigits, hsign, rfl⟩ := hexponent
    · rfl
    · refine encodable_append.mpr ⟨?_, encodable_of_isDigit hdigits.2⟩
      obtain rfl | rfl | rfl := hsign <;> rfl

/-- **What a value is written as can be encoded** if all strings in it can. -/
theorem encodable_write {v : JsonValue φ} (hw : isWritable f v = true) :
    Text.encodable (write f false v) = true ↔ JsonValue.every encodableHere v = true := by
  have hbracket : openBracket.isSurrogate = false ∧ Text.encodable [closeBracket] = true := ⟨rfl, rfl⟩
  have hbrace : openBrace.isSurrogate = false ∧ Text.encodable [closeBrace] = true := ⟨rfl, rfl⟩
  have hcolon : colon.isSurrogate = false := rfl
  induction v using JsonValue.induction with
  | null => exact iff_of_true rfl rfl
  | bool b => cases b <;> exact iff_of_true rfl rfl
  | int n => exact iff_of_true (encodable_writeInt n) rfl
  | float x => exact iff_of_true (f.floatText x hw).encodable rfl
  | string s => exact encodable_writeString s
  | array items ih =>
    obtain ⟨-, hitems⟩ := (JsonValue.every_array _).mp hw
    rw [write, encodable_append, encodable_cons, writeItems_eq, encodable_intercalate rfl, JsonValue.every_array]
    simp only [hbracket, true_and, and_true, List.forall_mem_map, encodableHere]
    exact forall₂_congr fun v hv => ih v hv (hitems v hv)
  | object fields ih =>
    obtain ⟨-, hfields⟩ := (JsonValue.every_object _).mp hw
    rw [write, encodable_append, encodable_cons, writeFields_eq, encodable_intercalate rfl, JsonValue.every_object]
    simp only [hbrace, true_and, and_true, List.forall_mem_map, encodableHere, List.all_eq_true, encodable_append,
      encodable_writeString, encodable_cons, hcolon]
    rw [← forall₂_and]
    exact forall₂_congr fun field hfield => and_congr_right fun _ => ih field hfield (hfields field hfield)

theorem mem_sortKeys {fields : List (Text × JsonValue φ)} {field : Text × JsonValue φ} (h : field ∈ fields) :
    (field.1, sortKeys field.2) ∈ (sortFields fields).insertionSort fun field field' => field.1 ≤ field'.1 := by
  rw [List.mem_insertionSort, sortFields_eq]
  exact List.mem_map_of_mem h

/-- A check that does not mind the order of keys at one value does not at all. -/
theorem every_of_sortKeys {p : JsonValue φ → Bool} (hp : ∀ v, p (sortKeys v) = true → p v = true) {v : JsonValue φ}
    (h : JsonValue.every p (sortKeys v) = true) : JsonValue.every p v = true := by
  induction v using JsonValue.induction with
  | null => exact h
  | bool b => exact h
  | int n => exact h
  | float x => exact h
  | string s => exact h
  | array items ih =>
    obtain ⟨hhere, hitems⟩ := (JsonValue.every_array _).mp h
    refine (JsonValue.every_array _).mpr ⟨hp _ hhere, fun v hv => ih v hv (hitems _ ?_)⟩
    rw [sortItems_eq]
    exact List.mem_map_of_mem hv
  | object fields ih =>
    obtain ⟨hhere, hfields⟩ := (JsonValue.every_object _).mp h
    refine (JsonValue.every_object _).mpr ⟨hp _ hhere, fun field hfield => ih field hfield ?_⟩
    exact hfields _ (mem_sortKeys hfield)

theorem encodableHere_sortKeys (v : JsonValue φ) : encodableHere (sortKeys v) = encodableHere v := by
  cases v with
  | object fields =>
    have hkeys : ∀ fields : List (Text × JsonValue φ), (fields.all fun field => Text.encodable field.1) =
        (fields.map Prod.fst).all Text.encodable := by
      intro fields
      rw [List.all_map]
      rfl
    rw [sortKeys, encodableHere, encodableHere, hkeys, hkeys]
    exact (keys_sortKeys fields).all_eq
  | _ => rfl

/-- **What `json.dumps` gives can be encoded** if all strings in the value can. -/
theorem encodable_dumps {v : JsonValue φ} {t : Text} (h : dumps f false v = some t) :
    Text.encodable t = true ↔ JsonValue.every encodableHere v = true := by
  unfold dumps at h
  split at h
  · rename_i hw
    cases h
    rw [encodable_write (isWritable_sortKeys hw)]
    constructor
    · exact every_of_sortKeys fun v hv => encodableHere_sortKeys v ▸ hv
    · exact every_sortKeys fun v hv => (encodableHere_sortKeys v).symm ▸ hv
  · cases h

theorem isWritable_sortKeys_iff {v : JsonValue φ} : isWritable f (sortKeys v) = true ↔ isWritable f v = true := by
  refine ⟨fun h => every_of_sortKeys (fun v hv => ?_) h, isWritable_sortKeys⟩
  cases v with
  | array items => rfl
  | object fields => rfl
  | _ => exact hv

/-- What is written does not depend on the order of keys. -/
theorem dumps_sortKeys (v : JsonValue φ) : dumps f false (sortKeys v) = dumps f false v := by
  rw [dumps, dumps, sortKeys_sortKeys]
  exact if_congr isWritable_sortKeys_iff rfl rfl

end Lib.JsonText
