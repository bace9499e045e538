import Fetech.Auth
import Fetech.Lib.UrlRoundtrip
import Fetech.Parsers.Formats

/-! The parent and the worker take a document for the same format.

The worker is told `file` and the suffix of the path. Lower case goes through a path character by
character, so the suffix of a path in lower case is that of the path, in lower case (`lowers_suffix`).
The worker may still read another path than it was sent: a suffix with a colon makes a scheme of what
is before it. No format has such a suffix, so what is left of it does not matter. -/
namespace Fetech.Parsers
open Lib

/-! ### Lower case, piece by piece -/

section
variable {l : Lowering}

theorem Lowered.ne_nil {c : CodePoint} {piece : Text} (h : Lowered l.image c piece) : piece ≠ [] := by
  obtain rfl | ⟨-, rfl⟩ := h
  · exact l.image_ne_nil c
  · exact List.cons_ne_nil _ _

theorem Lowered.slash_mem {c : CodePoint} {piece : Text} (h : Lowered l.image c piece) (hmem : slash ∈ piece) : c = slash := by
  obtain rfl | ⟨-, rfl⟩ := h
  · exact l.slash_mem c hmem
  · exact absurd hmem (by decide)

theorem Lowered.dot_mem {c : CodePoint} {piece : Text} (h : Lowered l.image c piece) (hmem : dot ∈ piece) : c = dot := by
  obtain rfl | ⟨-, rfl⟩ := h
  · exact l.dot_mem c hmem
  · exact absurd hmem (by decide)

/-- A character without letters stays as it is. -/
theorem Lowered.eq_singleton {c : CodePoint} {piece : Text} (h : Lowered l.image c piece) (hascii : c.val < 0x80)
    (hcase : ¬ (0x41 ≤ c.val ∧ c.val ≤ 0x5a)) : piece = [c] := by
  obtain rfl | ⟨rfl, -⟩ := h
  · rw [l.ascii c hascii]
    simp [hcase]
  · exact absurd hascii (by decide)

theorem lowered_slash {piece : Text} (h : Lowered l.image slash piece) : piece = [slash] :=
  h.eq_singleton (by decide) (by decide)

theorem lowered_dot {piece : Text} (h : Lowered l.image dot piece) : piece = [dot] :=
  h.eq_singleton (by decide) (by decide)

theorem Lowers.singleton {c : CodePoint} {piece : Text} (h : Lowered l.image c piece) : Lowers l.image [c] piece := by
  have hcons := Lowers.cons h .nil
  rwa [List.append_nil] at hcons

theorem Lowers.append {s t s' t' : Text} (h : Lowers l.image s t) (h' : Lowers l.image s' t') :
    Lowers l.image (s ++ s') (t ++ t') := by
  induction h with
  | nil => exact h'
  | cons hc _ ih =>
    rw [List.cons_append, List.append_assoc]
    exact .cons hc ih

theorem Lowers.nil_iff {s t : Text} (h : Lowers l.image s t) : s = [] ↔ t = [] := by
  cases h with
  | nil => exact Iff.rfl
  | cons hc _ => simp [hc.ne_nil]

/-- A text with a character that stays by itself is cut there with its lower case. -/
theorem Lowers.split {a b t : Text} {d : CodePoint} (hd : ∀ piece, Lowered l.image d piece → piece = [d])
    (h : Lowers l.image (a ++ d :: b) t) : ∃ a' b', t = a' ++ d :: b' ∧ Lowers l.image a a' ∧ Lowers l.image b b' := by
  induction a generalizing t with
  | nil =>
    cases h with
    | @cons _ piece _ t hc h =>
      rw [hd piece hc]
      exact ⟨[], t, rfl, .nil, h⟩
  | cons c a ih =>
    cases h with
    | @cons _ piece _ t hc h =>
      obtain ⟨a', b', rfl, ha, hb⟩ := ih h
      exact ⟨piece ++ a', b', by simp, .cons hc ha, hb⟩

theorem Lowers.dot_mem {s t : Text} (h : Lowers l.image s t) (hmem : dot ∈ t) : dot ∈ s := by
  induction h with
  | nil => cases hmem
  | cons hc _ ih =>
    obtain hmem | hmem := List.mem_append.mp hmem
    · rw [hc.dot_mem hmem]
      exact List.mem_cons_self
    · exact List.mem_cons_of_mem _ (ih hmem)

theorem Lowers.dot_notMem {s t : Text} (h : Lowers l.image s t) (hdot : dot ∉ s) : dot ∉ t := fun hmem => hdot (h.dot_mem hmem)

theorem Lowers.colon_mem {s t : Text} (h : Lowers l.image s t) (hmem : (0x3a : CodePoint) ∈ s) : (0x3a : CodePoint) ∈ t := by
  obtain ⟨a, b, rfl⟩ := List.append_of_mem hmem
  obtain ⟨a', b', rfl, -, -⟩ := h.split fun _ hc => hc.eq_singleton (by decide) (by decide)
  exact List.mem_append_right _ List.mem_cons_self

/-- Texts without a small sigma have one lower case. -/
theorem Lowers.unique {s t t' : Text} (h : Lowers l.image s t) (h' : Lowers l.image s t') (hsigma : smallSigma ∉ t)
    (hfinal : finalSigma ∉ t) : t = t' := by
  induction h generalizing t' with
  | nil => exact ((h'.nil_iff).mp rfl).symm
  | @cons c piece s t hc h ih =>
    cases h' with
    | @cons _ piece' _ t' hc' h' =>
      rw [List.mem_append, not_or] at hsigma hfinal
      rw [ih h' hsigma.2 hfinal.2]
      have himage : piece = l.image c := by
        obtain rfl | ⟨rfl, rfl⟩ := hc
        · rfl
        · exact absurd List.mem_cons_self hfinal.1
      have himage' : piece' = l.image c := by
        obtain rfl | ⟨rfl, rfl⟩ := hc'
        · rfl
        · rw [himage, l.sigma] at hsigma
          exact absurd List.mem_cons_self hsigma.1
      rw [himage, himage']

/-! ### Paths -/

theorem splitOn_append {piece t : Text} (hslash : slash ∉ piece) :
    (piece ++ t).splitOn slash = (t.splitOn slash).modifyHead (piece ++ ·) := by
  induction piece with
  | nil =>
    cases hsplit : t.splitOn slash with
    | nil => exact absurd hsplit (List.splitOn_ne_nil slash t)
    | cons first others => rw [List.nil_append, hsplit]; rfl
  | cons c piece ih =>
    rw [List.mem_cons, not_or] at hslash
    rw [List.cons_append, splitOn_cons, if_neg (Ne.symm hslash.1), ih hslash.2, List.modifyHead_modifyHead]
    rfl

/-- The pieces of a text in lower case are its pieces in lower case. -/
theorem Lowers.splitOn {s t : Text} (h : Lowers l.image s t) :
    List.Forall₂ (Lowers l.image) (s.splitOn slash) (t.splitOn slash) := by
  induction h with
  | nil => exact .cons .nil .nil
  | @cons c piece s t hc _ ih =>
    rw [splitOn_cons]
    split
    · rename_i heq
      subst heq
      rw [lowered_slash hc, List.singleton_append, splitOn_cons, if_pos rfl]
      exact .cons .nil ih
    · rename_i hne
      rw [splitOn_append fun hmem => hne (hc.slash_mem hmem)]
      cases hs : s.splitOn slash with
      | nil => exact absurd hs (List.splitOn_ne_nil slash s)
      | cons first others =>
        cases ht : t.splitOn slash with
        | nil => exact absurd ht (List.splitOn_ne_nil slash t)
        | cons first' others' =>
          rw [hs, ht, List.forall₂_cons] at ih
          exact .cons (.cons hc ih.1) ih.2

theorem Lowers.isPart_iff {s t : Text} (h : Lowers l.image s t) : PosixPath.isPart s = true ↔ PosixPath.isPart t = true := by
  have hdot : s = [dot] ↔ t = [dot] := by
    constructor
    · rintro rfl
      obtain ⟨a', b', rfl, ha, hb⟩ := Lowers.split (a := []) (fun _ => lowered_dot) h
      rw [ha.nil_iff.mp rfl, hb.nil_iff.mp rfl]
      rfl
    · rintro rfl
      obtain ⟨a, b, rfl⟩ := List.append_of_mem (h.dot_mem (List.mem_singleton_self dot))
      obtain ⟨a', b', heq, ha, hb⟩ := Lowers.split (fun _ => lowered_dot) h
      cases a' with
      | nil =>
        cases b' with
        | nil => rw [ha.nil_iff.mpr rfl, hb.nil_iff.mpr rfl]; rfl
        | cons c rest => cases heq
      | cons c rest => simp at heq
  simp only [PosixPath.isPart, Bool.and_eq_true, Bool.not_eq_true', List.isEmpty_eq_false_iff, bne_iff_ne, ne_eq, h.nil_iff, hdot]

theorem Lowers.tail {s t : Text} (h : Lowers l.image s t) :
    List.Forall₂ (Lowers l.image) (PosixPath.parse s).tail (PosixPath.parse t).tail := by
  rw [PosixPath.parse_tail, PosixPath.parse_tail]
  exact List.rel_filter (fun _ _ h => h.isPart_iff) h.splitOn

theorem forall₂_getLast? {α β : Type} {R : α → β → Prop} {as : List α} {bs : List β} (h : List.Forall₂ R as bs) {a : α} {b : β}
    (hdefault : R a b) : R (as.getLast?.getD a) (bs.getLast?.getD b) := by
  induction h generalizing a b with
  | nil => exact hdefault
  | @cons a' b' as bs hhead htail ih =>
    rw [List.getLast?_cons, List.getLast?_cons]
    exact ih hhead

theorem Lowers.name {s t : Text} (h : Lowers l.image s t) :
    Lowers l.image (PosixPath.parse s).name (PosixPath.parse t).name := forall₂_getLast? h.tail .nil

end

/-! ### Suffixes -/

theorem suffix_of_notMem {p : PosixPath} (h : dot ∉ p.name) : p.suffix = [] := by
  have hall : p.name.reverse.takeWhile (· ≠ dot) = p.name.reverse := by
    rw [List.takeWhile_eq_self_iff]
    exact fun c hc => decide_eq_true fun heq => h (heq ▸ List.mem_reverse.mp hc)
  rw [PosixPath.suffix, hall, List.length_reverse]
  exact if_pos (.inr (Nat.le_succ _))

theorem suffix_of_append {p : PosixPath} {stem ext : Text} (h : p.name = stem ++ dot :: ext) (hdot : dot ∉ ext) :
    p.suffix = if ext = [] ∨ stem = [] then [] else dot :: ext := by
  have htake : p.name.reverse.takeWhile (· ≠ dot) = ext.reverse := by
    have hreverse : p.name.reverse = ext.reverse ++ dot :: stem.reverse := by rw [h]; simp
    rw [hreverse, List.takeWhile_append_of_pos, List.takeWhile_cons_of_neg, List.append_nil]
    · simp
    · exact fun c hc => decide_eq_true fun heq => hdot (heq ▸ List.mem_reverse.mp hc)
  have hlength : p.name.length ≤ ext.reverse.length + 1 ↔ stem = [] := by
    rw [h, List.length_append, List.length_cons, List.length_reverse, ← List.length_eq_zero_iff]
    omega
  rw [PosixPath.suffix, htake]
  simp only [hlength, List.reverse_eq_nil_iff, List.reverse_reverse]

/-- A name has no dot, or a last one. -/
theorem exists_last_dot {name : Text} (h : dot ∈ name) : ∃ stem ext, name = stem ++ dot :: ext ∧ dot ∉ ext := by
  obtain ⟨ext, stem, heq, hdot⟩ := List.eq_append_cons_of_mem (List.mem_reverse.mpr h)
  refine ⟨stem.reverse, ext.reverse, ?_, fun hmem => hdot (List.mem_reverse.mp hmem)⟩
  rw [← List.reverse_reverse name, heq]
  simp

/-- **The suffix of a path in lower case is its suffix in lower case.** -/
theorem Lowers.suffix {l : Lowering} {s t : Text} (h : Lowers l.image s t) :
    Lowers l.image (PosixPath.parse s).suffix (PosixPath.parse t).suffix := by
  have hname := h.name
  by_cases hdot : dot ∈ (PosixPath.parse s).name
  · obtain ⟨stem, ext, hs, hext⟩ := exists_last_dot hdot
    rw [hs] at hname
    obtain ⟨stem', ext', ht, hstem, hlower⟩ := hname.split fun _ => lowered_dot
    rw [suffix_of_append hs hext, suffix_of_append ht (hlower.dot_notMem hext)]
    simp only [hstem.nil_iff, hlower.nil_iff]
    split
    · exact .nil
    · have hseparator : Lowers l.image [dot] [dot] := Lowers.singleton (.inl (l.ascii dot (by decide)).symm)
      exact hseparator.append hlower
  · rw [suffix_of_notMem hdot, suffix_of_notMem (hname.dot_notMem hdot)]
    exact .nil

theorem mem_of_mem_splitOn {s part : Text} (h : part ∈ s.splitOn slash) {c : CodePoint} (hc : c ∈ part) : c ∈ s := by
  induction s generalizing part with
  | nil =>
    rw [List.splitOn_nil, List.mem_singleton] at h
    exact h ▸ hc
  | cons d rest ih =>
    rw [splitOn_cons] at h
    split at h
    · obtain rfl | h := List.mem_cons.mp h
      · cases hc
      · exact List.mem_cons_of_mem _ (ih h hc)
    · cases hsplit : rest.splitOn slash with
      | nil => exact absurd hsplit (List.splitOn_ne_nil slash rest)
      | cons first others =>
        rw [hsplit] at h ih
        obtain rfl | h := List.mem_cons.mp h
        · obtain rfl | hc := List.mem_cons.mp hc
          · exact List.mem_cons_self
          · exact List.mem_cons_of_mem _ (ih List.mem_cons_self hc)
        · exact List.mem_cons_of_mem _ (ih (List.mem_cons_of_mem _ h) hc)

theorem name_eq_or (p : PosixPath) : p.name = [] ∨ p.name ∈ p.tail := by
  rw [PosixPath.name]
  cases hlast : p.tail.getLast? with
  | none => exact .inl rfl
  | some name => exact .inr (List.mem_of_getLast? hlast)

/-- A suffix is empty, or it is a dot and more without one. -/
structure IsSuffix (path suffix : Text) : Prop where
  form : suffix = [] ∨ ∃ ext, suffix = dot :: ext ∧ ext ≠ [] ∧ dot ∉ ext
  slash_notMem : slash ∉ suffix
  subset : suffix ⊆ path

theorem isSuffix (path : Text) : IsSuffix path (PosixPath.parse path).suffix := by
  by_cases hdot : dot ∈ (PosixPath.parse path).name
  · obtain ⟨stem, ext, hname, hext⟩ := exists_last_dot hdot
    rw [suffix_of_append hname hext]
    split
    · exact ⟨.inl rfl, List.not_mem_nil, List.nil_subset _⟩
    · rename_i hne
      rw [not_or] at hne
      have hpart := (name_eq_or (PosixPath.parse path)).resolve_left (List.ne_nil_of_mem hdot)
      have hsub : dot :: ext ⊆ (PosixPath.parse path).name := by
        rw [hname]
        exact List.subset_append_right _ _
      refine ⟨.inr ⟨ext, rfl, hne.1, hext⟩, fun hmem => ((PosixPath.parse path).parts _ hpart).2 (hsub hmem), fun c hc => ?_⟩
      rw [PosixPath.parse_tail] at hpart
      exact mem_of_mem_splitOn (List.mem_filter.mp hpart).1 (hsub hc)
  · rw [suffix_of_notMem hdot]
    exact ⟨.inl rfl, List.not_mem_nil, List.nil_subset _⟩

/-- The suffix that the worker is sent is that of the file it is told of. -/
theorem suffix_file {path suffix : Text} (h : IsSuffix path suffix) :
    (PosixPath.parse (Text.ofString "file" ++ suffix)).suffix = suffix := by
  have hslash : slash ∉ Text.ofString "file" ++ suffix := by
    rw [List.mem_append, not_or]
    exact ⟨by decide, h.slash_notMem⟩
  have hpart : PosixPath.isPart (Text.ofString "file" ++ suffix) = true := by
    simp [PosixPath.isPart, Text.ofString]
  have hname : (PosixPath.parse (Text.ofString "file" ++ suffix)).name = Text.ofString "file" ++ suffix := by
    rw [PosixPath.name, (PosixPath.parse_component hslash hpart).2]
    rfl
  obtain rfl | ⟨ext, rfl, hne, hdot⟩ := h.form
  · exact suffix_of_notMem (by rw [hname]; decide)
  · rw [suffix_of_append hname hdot, if_neg]
    rw [not_or]
    exact ⟨hne, by decide⟩

/-! ### What the worker reads -/

theorem charsOf_textOf (s : List Char) : charsOf (textOf s) = s := by
  rw [charsOf, textOf, List.map_map]
  refine (List.map_congr_left fun ch _ => ?_).trans (List.map_id s)
  show Char.ofNat (CodePoint.ofChar ch).val = ch
  rw [CodePoint.val_ofChar, Char.ofNat_toNat]

theorem exists_chars {path : List Char} {s : Text} (h : s ⊆ textOf path) : ∃ chars, s = textOf chars ∧ chars ⊆ path := by
  induction s with
  | nil => exact ⟨[], rfl, List.nil_subset _⟩
  | cons c s ih =>
    rw [List.cons_subset] at h
    obtain ⟨ch, hch, rfl⟩ := List.mem_map.mp h.1
    obtain ⟨chars, rfl, hsub⟩ := ih h.2
    exact ⟨ch :: chars, rfl, List.cons_subset.mpr ⟨hch, hsub⟩⟩

/-- A name without a separator is a path, but for what looks like a scheme. -/
theorem urlsplit_name (t : Url.Tables) {name : List Char} (hhead : name.head? = some 'f')
    (hkept : ∀ c ∈ name, Url.isKept c = true ∧ c ≠ '?' ∧ c ≠ '#' ∧ c ≠ '/') :
    ∃ parts, Url.urlsplit t name = some parts ∧ parts.path = (Url.splitScheme [] name).2 := by
  have hclean : Url.clean name = name := by
    have hdrop : name.dropWhile (fun c => c.val ≤ 32) = name := by
      cases name with
      | nil => rfl
      | cons c rest =>
        cases hhead
        exact List.dropWhile_cons_of_neg (by decide)
    show (name.dropWhile _).filter Url.isKept = name
    rw [hdrop, List.filter_eq_self]
    exact fun c hc => (hkept c hc).1
  have hrest : ∀ c ∈ (Url.splitScheme [] name).2, c ≠ '?' ∧ c ≠ '#' ∧ c ≠ '/' := fun c hc =>
    (hkept c ((Url.splitScheme_subset name).2 hc)).2
  have hauthority : Url.splitAuthority (Url.splitScheme [] name).2 = ([], (Url.splitScheme [] name).2) :=
    Url.splitAuthority_of_head fun hfirst => (hrest '/' (List.mem_of_head? hfirst)).2.2 rfl
  rw [Url.urlsplit_eq, hclean]
  dsimp only
  rw [hauthority]
  refine ⟨_, rfl, ?_⟩
  show Url.before '?' (Url.before '#' (Url.splitScheme [] name).2) = _
  rw [(Url.before_of_notMem fun hmem => (hrest '#' hmem).2.1 rfl).1, (Url.before_of_notMem fun hmem => (hrest '?' hmem).1 rfl).1]

/-! ### The two formats -/

/-- The suffixes that a format is known by. -/
def knownSuffixes : List String :=
  containerFormats.map Prod.fst ++ markdownSuffixes ++ textSuffixes ++ suffixFormats.map Prod.fst

/-- Two suffixes that no table tells apart. -/
def Alike (suffix suffix' : Text) : Prop := ∀ name ∈ knownSuffixes, Text.ofString name = suffix ↔ Text.ofString name = suffix'

section
variable {l : FormatLibrary} {suffix suffix' : Text}

theorem formatFor_congr {table : List (String × String)}
    (h : ∀ entry ∈ table, Text.ofString entry.1 = suffix ↔ Text.ofString entry.1 = suffix') :
    formatFor table suffix = formatFor table suffix' := by
  induction table with
  | nil => rfl
  | cons entry table ih =>
    have htable := ih fun entry hentry => h entry (List.mem_cons_of_mem _ hentry)
    have hentry : decide (Text.ofString entry.1 = suffix) = decide (Text.ofString entry.1 = suffix') :=
      decide_eq_decide.mpr (h entry List.mem_cons_self)
    rw [formatFor, formatFor] at htable ⊢
    rw [List.find?_cons, List.find?_cons, hentry]
    split
    · rfl
    · exact htable

theorem isOneOf_congr {names : List String} (h : ∀ name ∈ names, Text.ofString name = suffix ↔ Text.ofString name = suffix') :
    isOneOf names suffix = isOneOf names suffix' := by
  rw [Bool.eq_iff_iff, isOneOf, isOneOf, List.any_eq_true, List.any_eq_true]
  refine exists_congr fun name => and_congr_right fun hname => ?_
  rw [decide_eq_true_eq, decide_eq_true_eq]
  exact h name hname

theorem formatOf_congr (h : Alike suffix suffix') (body : List UInt8) : formatOf l suffix body = formatOf l suffix' body := by
  have hin : ∀ names : List String, names ⊆ knownSuffixes →
      ∀ name ∈ names, Text.ofString name = suffix ↔ Text.ofString name = suffix' := fun _ hsub name hname => h name (hsub hname)
  have hentries : ∀ table : List (String × String), table.map Prod.fst ⊆ knownSuffixes →
      ∀ entry ∈ table, Text.ofString entry.1 = suffix ↔ Text.ofString entry.1 = suffix' :=
    fun _ hsub entry hentry => h entry.1 (hsub (List.mem_map_of_mem hentry))
  rw [formatOf, formatOf, formatFor_congr (hentries containerFormats (by decide)),
    isOneOf_congr (hin markdownSuffixes (by decide)), isOneOf_congr (hin textSuffixes (by decide)),
    formatFor_congr (hentries suffixFormats (by decide))]

/-- A known suffix has no small sigma, no colon, and it is not empty. -/
theorem known_plain {name : String} (h : name ∈ knownSuffixes) : smallSigma ∉ Text.ofString name ∧
    finalSigma ∉ Text.ofString name ∧ (0x3a : CodePoint) ∉ Text.ofString name ∧ Text.ofString name ≠ [] := by
  have hall : ∀ name ∈ knownSuffixes, smallSigma ∉ Text.ofString name ∧ finalSigma ∉ Text.ofString name ∧
      (0x3a : CodePoint) ∉ Text.ofString name ∧ Text.ofString name ≠ [] := by decide
  exact hall name h

theorem alike_of_lowers {s : Text} (h : Lowers l.lowering.image s suffix) (h' : Lowers l.lowering.image s suffix') :
    Alike suffix suffix' := by
  intro name hname
  obtain ⟨hsmall, hfinal, -, -⟩ := known_plain hname
  constructor
  · rintro rfl
    exact h.unique h' hsmall hfinal
  · rintro rfl
    exact h'.unique h hsmall hfinal

theorem alike_of_colon (h : (0x3a : CodePoint) ∈ suffix) : Alike suffix [] := by
  intro name hname
  obtain ⟨-, -, hcolon, hne⟩ := known_plain hname
  constructor
  · rintro rfl
    exact absurd h hcolon
  · exact fun heq => absurd heq hne

end

/-- Behind the colon of a suffix there is no dot, and so no suffix. -/
theorem suffix_after (l : FormatLibrary) {chars : List Char} {ext : Text} (hchars : textOf chars = dot :: ext) (hdot : dot ∉ ext) :
    (PosixPath.parse (l.lowering.lower (textOf (Url.after ':' ("file".toList ++ chars))))).suffix = [] := by
  have hrest : dot ∉ textOf (Url.after ':' ("file".toList ++ chars)) := by
    cases chars with
    | nil => cases hchars
    | cons c rest =>
      obtain ⟨hc, hrest⟩ := List.cons.inj hchars
      have hne : ':' ≠ c := by
        rintro rfl
        exact absurd hc (by decide)
      have hafter := Url.after_append ':' ("file".toList ++ [c]) rest
      rw [if_neg (by simpa using hne), List.append_assoc, List.singleton_append] at hafter
      rw [hafter]
      intro hmem
      obtain ⟨d, hd, hdd⟩ := List.mem_map.mp hmem
      have hmem : CodePoint.ofChar d ∈ rest.map CodePoint.ofChar := List.mem_map_of_mem (Url.after_subset _ _ hd)
      rw [hdd, hrest] at hmem
      exact hdot hmem
  have hsuffix := isSuffix (l.lowering.lower (textOf (Url.after ':' ("file".toList ++ chars))))
  obtain hnil | ⟨ext', hform, -, -⟩ := hsuffix.form
  · exact hnil
  · have hmem := hsuffix.subset
    rw [hform] at hmem
    exact absurd (hmem List.mem_cons_self) ((l.lowering.lowers _).dot_notMem hrest)

theorem isName_file {path : List Char} {chars : List Char} (hpath : ∀ c ∈ path, Url.isKept c = true ∧ c ≠ '?' ∧ c ≠ '#')
    (hsub : chars ⊆ path) (hslash : slash ∉ textOf chars) :
    ∀ c ∈ "file".toList ++ chars, Url.isKept c = true ∧ c ≠ '?' ∧ c ≠ '#' ∧ c ≠ '/' := by
  intro c hc
  obtain hc | hc := List.mem_append.mp hc
  · have hall : "file".toList.all (fun c => decide (Url.isKept c = true ∧ c ≠ '?' ∧ c ≠ '#' ∧ c ≠ '/')) = true := by decide
    exact of_decide_eq_true (List.all_eq_true.mp hall c hc)
  · obtain ⟨hkept, hquery, hfragment⟩ := hpath c (hsub hc)
    refine ⟨hkept, hquery, hfragment, ?_⟩
    rintro rfl
    exact hslash (List.mem_map_of_mem hc)

/-- What the worker is sent can be read, and no table tells its suffix from that of the target. -/
theorem alike_targetPath (l : FormatLibrary) {path : List Char} (hpath : ∀ c ∈ path, Url.isKept c = true ∧ c ≠ '?' ∧ c ≠ '#') :
    ∃ parts, Url.urlsplit l.urls (charsOf (Text.ofString "file" ++ (PosixPath.parse (textOf path)).suffix)) = some parts ∧
      Alike (PosixPath.parse (l.lowering.lower (textOf path))).suffix
        (PosixPath.parse (l.lowering.lower (textOf parts.path))).suffix := by
  have hsuffix := isSuffix (textOf path)
  have htarget := (l.lowering.lowers (textOf path)).suffix
  obtain ⟨chars, hchars, hsub⟩ := exists_chars hsuffix.subset
  have hfile : Text.ofString "file" ++ (PosixPath.parse (textOf path)).suffix = textOf ("file".toList ++ chars) := by
    rw [hchars, textOf, textOf, List.map_append]
    rfl
  obtain ⟨parts, hparts, hread⟩ := urlsplit_name l.urls rfl (isName_file hpath hsub (hchars ▸ hsuffix.slash_notMem))
  rw [hfile, charsOf_textOf]
  refine ⟨parts, hparts, ?_⟩
  rw [hread]
  unfold Url.splitScheme
  dsimp only
  split
  · -- a scheme ends in a colon of the suffix, which no known suffix has
    rename_i hscheme
    simp only [Bool.and_eq_true, List.contains_iff_mem] at hscheme
    have hcolon : ':' ∈ chars := (List.mem_append.mp hscheme.1.1).resolve_left (by decide)
    have hmem : (0x3a : CodePoint) ∈ (PosixPath.parse (textOf path)).suffix := hchars ▸ List.mem_map_of_mem hcolon
    obtain hnil | ⟨ext, hext, -, hdot⟩ := hsuffix.form
    · rw [hnil] at hmem
      cases hmem
    · rw [suffix_after l (hchars.symm.trans hext) hdot]
      exact alike_of_colon (htarget.colon_mem hmem)
  · have hworker := (l.lowering.lowers (textOf ("file".toList ++ chars))).suffix
    rw [← hfile, suffix_file hsuffix, hfile] at hworker
    exact alike_of_lowers htarget hworker

theorem detectDocumentFormat_eq (l : FormatLibrary) {target : List Char} {parts : Url.SplitResult}
    (h : Url.urlsplit l.urls target = some parts) (body : List UInt8) : detectDocumentFormat l target body =
      some (formatOf l (PosixPath.parse (l.lowering.lower (textOf parts.path))).suffix body) := by
  rw [detectDocumentFormat, h]
  rfl

/-- What the worker is told of a target is enough to detect the format of any body. -/
theorem detectDocumentFormat_targetPath {l : FormatLibrary} {target : List Char} {path : Text}
    (h : targetPath l target = some path) (body : List UInt8) : ∃ format, detectDocumentFormat l target body = some format ∧
      detectDocumentFormat l (charsOf path) body = some format := by
  obtain ⟨parts, hparts, hpath⟩ := Option.bind_eq_some_iff.mp h
  cases hpath
  obtain ⟨parts', hparts', halike⟩ := alike_targetPath l (Url.clean_of_urlsplit hparts).path
  rw [detectDocumentFormat_eq l hparts, detectDocumentFormat_eq l hparts', formatOf_congr halike]
  exact ⟨_, rfl, rfl⟩

/-- **The parent and the worker observe the same format**: the worker, told no more than `file` and the
suffix of a path, detects from the same bytes what the parent detects from the whole target. -/
theorem detectCapability_agrees (l : FormatLibrary) (requested : String) (target : List Char) (body : List UInt8) (path : Text)
    (h : targetPath l target = some path) : ∃ observed, detectCapability l requested target body = some observed ∧
      detectCapability l requested (charsOf path) body = some observed := by
  unfold detectCapability
  split
  · exact ⟨requested, rfl, rfl⟩
  · split
    · exact ⟨"git_lfs", rfl, rfl⟩
    · exact detectDocumentFormat_targetPath h body

/-! ### A path in capitals -/

/-- Lower case for letters without accents and for the sigma. -/
def plainImage (c : CodePoint) : Text :=
  [if 0x41 ≤ c.val && c.val ≤ 0x5a then Fin.ofNat 0x110000 (c.val + 32) else if c = capitalSigma then smallSigma else c]

theorem plainImage_ascii (c : CodePoint) (h : c.val < 0x80) :
    plainImage c = [if 0x41 ≤ c.val && c.val ≤ 0x5a then Fin.ofNat 0x110000 (c.val + 32) else c] := by
  have hne : c ≠ capitalSigma := by
    rintro rfl
    exact absurd h (by decide)
  rw [plainImage, if_neg hne]

/-- A separator is the image of itself only. -/
theorem mem_plainImage {c d : CodePoint} (hd : d.val < 0x41) (h : d ∈ plainImage c) : c = d := by
  rw [plainImage, List.mem_singleton] at h
  split at h
  · rename_i hcase
    simp only [Bool.and_eq_true, decide_eq_true_eq] at hcase
    have hval := congrArg Fin.val h
    rw [show (Fin.ofNat 0x110000 (c.val + 32)).val = c.val + 32 from Nat.mod_eq_of_lt (by omega)] at hval
    omega
  · split at h
    · rw [h] at hd
      exact absurd hd (by decide)
    · exact h.symm

theorem lowers_plain (s : Text) : Lowers plainImage s (s.flatMap plainImage) := by
  induction s with
  | nil => exact .nil
  | cons c s ih =>
    rw [List.flatMap_cons]
    exact .cons (.inl rfl) ih

theorem plainImage_ne_nil (c : CodePoint) : plainImage c ≠ [] := List.cons_ne_nil _ _

theorem plainImage_sigma : plainImage capitalSigma = [smallSigma] := by decide

theorem slash_mem_plainImage (c : CodePoint) : slash ∈ plainImage c → c = slash := mem_plainImage (by decide)

theorem dot_mem_plainImage (c : CodePoint) : dot ∈ plainImage c → c = dot := mem_plainImage (by decide)

def plainLowering : Lowering where
  lower s := s.flatMap plainImage
  image := plainImage
  lowers := lowers_plain
  ascii := plainImage_ascii
  image_ne_nil := plainImage_ne_nil
  slash_mem := slash_mem_plainImage
  dot_mem := dot_mem_plainImage
  sigma := plainImage_sigma

def plainFormats : FormatLibrary where
  urls := asciiCodecs.toTables
  lowering := plainLowering
  sniffs _ := false
  isPrintable c := 0x20 ≤ c.val && c.val < 0x7f

theorem detectCapability_agrees_capitals : ∃ observed,
    detectCapability plainFormats "github_raw" "https://raw.githubusercontent.com/o/r/v1/A.CSV".toList [] = some observed ∧
      detectCapability plainFormats "github_raw" (charsOf (Text.ofString "file.CSV")) [] = some observed :=
  detectCapability_agrees plainFormats _ _ _ _ (by decide +kernel)

end Fetech.Parsers
