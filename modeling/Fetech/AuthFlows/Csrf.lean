import Fetech.AuthFlows
import Fetech.Security.Stability

/-! What a CSRF token was taken from.

Where an input stands is said of the tags before it: it is in a form if the last form tag there
opens one. The parser keeps exactly this while it goes through the tags (`Follows`), so that what
it puts down are the hidden inputs in forms; of these at most one value is ever given out
(`extractCsrfToken_sound`). -/
namespace Fetech.AuthFlows
open Lib Lib.Except Lib.Url

section
variable (c : Codecs)

/-! ### Places -/

def Tag.isForm : Tag → Bool
  | .start name _ => isNamed c "form" name
  | .finish name => isNamed c "form" name

def Tag.opensForm : Tag → Bool
  | .start name _ => isNamed c "form" name
  | .finish _ => false

def Tag.isInput : Tag → Bool
  | .start name _ => isNamed c "input" name
  | .finish _ => false

/-- The form that is open after some tags: the last tag of a form opens it. -/
def openForm (before : List Tag) : Option Attributes :=
  match (before.filter (Tag.isForm c)).getLast? with
  | some (.start _ attrs) => some attrs
  | _ => none

/-- A tag stands behind others. -/
def Stands (tags before : List Tag) (name : String) (attrs : Attributes) : Prop := ∃ rest, tags = before ++ .start name attrs :: rest

/-- An input that is sought stands in a form. -/
def HiddenInput (names : List (List Char)) (tags : List Tag) (form attrs : Attributes) : Prop :=
  ∃ before name, Stands tags before name attrs ∧ isNamed c "input" name = true ∧ openForm c before = some form ∧
    isSought c names attrs = true

/-- The number of inputs that stand in forms. -/
def fieldCount (tags : List Tag) : Nat :=
  (List.range tags.length).countP fun i => tags[i]?.any (Tag.isInput c) && (openForm c (tags.take i)).isSome

/-- A page without a form in a form, with every attribute once and within the limits. -/
structure WellFormed (maxForms maxFields : Int) (tags : List Tag) : Prop where
  once : ∀ before name attrs, Stands tags before name attrs → (attrs.map fun attr => c.casefold attr.1.toList).Nodup
  unnested : ∀ before name attrs, Stands tags before name attrs → isNamed c "form" name = true → openForm c before = none
  forms : (tags.countP (Tag.opensForm c) : Int) ≤ maxForms
  fields : (fieldCount c tags : Int) ≤ maxFields

variable {c}

theorem isForm_of_isInput {name : String} (h : isNamed c "input" name = true) : isNamed c "form" name = false := by
  unfold isNamed at h ⊢
  rw [of_decide_eq_true h]
  decide

theorem openForm_concat (before : List Tag) (tag : Tag) : openForm c (before ++ [tag]) =
    if Tag.isForm c tag then (match tag with | .start _ attrs => some attrs | .finish _ => none) else openForm c before := by
  unfold openForm
  rw [List.filter_append]
  by_cases h : Tag.isForm c tag = true
  · rw [List.filter_singleton, h, if_pos rfl]
    cases tag <;> simp
  · rw [List.filter_singleton, Bool.eq_false_iff.mpr h]
    simp

theorem openForm_start (before : List Tag) (name : String) (attrs : Attributes) :
    openForm c (before ++ [.start name attrs]) = if isNamed c "form" name then some attrs else openForm c before :=
  openForm_concat before (.start name attrs)

theorem openForm_finish (before : List Tag) (name : String) :
    openForm c (before ++ [.finish name]) = if isNamed c "form" name then none else openForm c before :=
  openForm_concat before (.finish name)

theorem stands_concat {tags before : List Tag} {tag : Tag} {name : String} {attrs : Attributes} :
    Stands (tags ++ [tag]) before name attrs ↔ Stands tags before name attrs ∨ before = tags ∧ tag = .start name attrs := by
  constructor
  · intro ⟨rest, h⟩
    obtain rfl | ⟨rest, last, rfl⟩ := List.eq_nil_or_concat rest
    · obtain ⟨rfl, hlast⟩ := List.append_inj' h rfl
      exact .inr ⟨rfl, List.singleton_inj.mp hlast⟩
    · rw [List.concat_eq_append, ← List.cons_append, ← List.append_assoc] at h
      obtain ⟨rfl, -⟩ := List.append_inj' h rfl
      exact .inl ⟨rest, rfl⟩
  · intro h
    obtain ⟨rest, rfl⟩ | ⟨rfl, rfl⟩ := h
    · exact ⟨rest ++ [tag], by rw [List.append_assoc, List.cons_append]⟩
    · exact ⟨[], rfl⟩

theorem hiddenInput_concat {names : List (List Char)} {tags : List Tag} {tag : Tag} {form attrs : Attributes} :
    HiddenInput c names (tags ++ [tag]) form attrs ↔ HiddenInput c names tags form attrs ∨
      ∃ name, tag = .start name attrs ∧ isNamed c "input" name = true ∧ openForm c tags = some form ∧ isSought c names attrs = true := by
  constructor
  · intro ⟨before, name, hstands, hinput⟩
    obtain hstands | ⟨rfl, rfl⟩ := stands_concat.mp hstands
    · exact .inl ⟨before, name, hstands, hinput⟩
    · exact .inr ⟨name, rfl, hinput⟩
  · intro h
    obtain ⟨before, name, hstands, hinput⟩ | ⟨name, rfl, hinput⟩ := h
    · exact ⟨before, name, stands_concat.mpr (.inl hstands), hinput⟩
    · exact ⟨tags, name, stands_concat.mpr (.inr ⟨rfl, rfl⟩), hinput⟩

theorem hiddenInput_start {names : List (List Char)} {tags : List Tag} {name : String} {attrs form attrs' : Attributes} :
    HiddenInput c names (tags ++ [.start name attrs]) form attrs' ↔ HiddenInput c names tags form attrs' ∨
      attrs' = attrs ∧ isNamed c "input" name = true ∧ openForm c tags = some form ∧ isSought c names attrs = true := by
  rw [hiddenInput_concat]
  constructor
  · intro h
    obtain h | ⟨_, htag, hinput⟩ := h
    · exact .inl h
    · cases htag
      exact .inr ⟨rfl, hinput⟩
  · intro h
    obtain h | ⟨rfl, hinput⟩ := h
    · exact .inl h
    · exact .inr ⟨name, rfl, hinput⟩

theorem fieldCount_concat (tags : List Tag) (tag : Tag) : fieldCount c (tags ++ [tag]) =
    fieldCount c tags + if Tag.isInput c tag && (openForm c tags).isSome then 1 else 0 := by
  unfold fieldCount
  rw [List.length_append, List.length_singleton, List.range_succ, List.countP_append, List.countP_singleton]
  congr 1
  · refine List.countP_congr fun i hi => ?_
    have hlt : i < tags.length := List.mem_range.mp hi
    rw [List.getElem?_append_left hlt, List.take_append_of_le_length (Nat.le_of_lt hlt)]
  · rw [List.getElem?_concat_length, List.take_left']
    · rfl
    · rfl

/-! ### The parser -/

variable (c) in
/-- What is put down of an input in a form. -/
def candidateOf (form attrs : Attributes) : Candidate :=
  ⟨valueOf c form "action" "", valueOf c form "method" "GET", valueOf c attrs "name" "", valueOf c attrs "value" ""⟩

variable (c) in
/-- The parser has gone through the tags: it knows the form that is open, the numbers and the
hidden inputs that were sought. -/
structure Follows (names : List (List Char)) (maxForms maxFields : Int) (tags : List Tag) (s : BoundedCSRFParser) : Prop
    extends WellFormed c maxForms maxFields tags where
  form : s.form = (openForm c tags).map fun attrs => ⟨valueOf c attrs "action" "", valueOf c attrs "method" "GET"⟩
  formCount : s.forms = tags.countP (Tag.opensForm c)
  inputCount : s.fields = fieldCount c tags
  candidates : ∀ candidate, candidate ∈ s.candidates ↔
    ∃ form attrs, HiddenInput c names tags form attrs ∧ candidate = candidateOf c form attrs

section
variable {names : List (List Char)} {maxForms maxFields : Int} {tags : List Tag} {s t : BoundedCSRFParser}

theorem follows_start (hforms : 0 ≤ maxForms) (hfields : 0 ≤ maxFields) : Follows c names maxForms maxFields [] {} where
  once before name attrs h := by
    obtain ⟨rest, h⟩ := h
    cases before <;> cases h
  unnested before name attrs h := by
    obtain ⟨rest, h⟩ := h
    cases before <;> cases h
  forms := hforms
  fields := hfields
  form := rfl
  formCount := rfl
  inputCount := rfl
  candidates candidate := by
    constructor
    · exact nofun
    · intro ⟨_, _, ⟨before, _, ⟨rest, h⟩, _⟩, _⟩
      cases before <;> cases h

/-- A page stays well-formed with a start tag that is, or with any end tag. -/
theorem WellFormed.concat (h : WellFormed c maxForms maxFields tags) (tag : Tag)
    (honce : ∀ name attrs, tag = .start name attrs → (attrs.map fun attr => c.casefold attr.1.toList).Nodup)
    (hunnested : ∀ name attrs, tag = .start name attrs → isNamed c "form" name = true → openForm c tags = none)
    (hforms : ((tags ++ [tag]).countP (Tag.opensForm c) : Int) ≤ maxForms)
    (hfields : (fieldCount c (tags ++ [tag]) : Int) ≤ maxFields) : WellFormed c maxForms maxFields (tags ++ [tag]) where
  once before name attrs hstands := by
    obtain hstands | ⟨-, htag⟩ := stands_concat.mp hstands
    · exact h.once before name attrs hstands
    · exact honce name attrs htag
  unnested before name attrs hstands hname := by
    obtain hstands | ⟨rfl, htag⟩ := stands_concat.mp hstands
    · exact h.unnested before name attrs hstands hname
    · exact hunnested name attrs htag hname
  forms := hforms
  fields := hfields

/-- An end tag closes the form, if it is one of a form, and changes nothing else. -/
theorem follows_endtag (h : Follows c names maxForms maxFields tags s) (name : String) :
    Follows c names maxForms maxFields (tags ++ [.finish name]) (handleEndtag c s name) := by
  have hcount : (tags ++ [Tag.finish name]).countP (Tag.opensForm c) = tags.countP (Tag.opensForm c) := by
    rw [List.countP_append, List.countP_singleton]
    rfl
  have hfieldCount : fieldCount c (tags ++ [Tag.finish name]) = fieldCount c tags := fieldCount_concat tags (.finish name)
  have hwell := h.toWellFormed.concat (.finish name) nofun nofun (hcount ▸ h.forms) (hfieldCount ▸ h.fields)
  have hcandidates : ∀ candidate, candidate ∈ s.candidates ↔
      ∃ form attrs, HiddenInput c names (tags ++ [.finish name]) form attrs ∧ candidate = candidateOf c form attrs := by
    intro candidate
    rw [h.candidates]
    simp [hiddenInput_concat]
  unfold handleEndtag
  split
  · rename_i hname
    exact {hwell with
      form := by rw [openForm_finish, if_pos hname]; rfl
      formCount := h.formCount.trans hcount.symm
      inputCount := h.inputCount.trans hfieldCount.symm
      candidates := hcandidates }
  · rename_i hname
    exact {hwell with
      form := by rw [openForm_finish, if_neg hname]; exact h.form
      formCount := h.formCount.trans hcount.symm
      inputCount := h.inputCount.trans hfieldCount.symm
      candidates := hcandidates }

variable (c names maxForms maxFields s) in
/-- What a start tag with every attribute once does, if the parser lets it pass. -/
inductive StartEffect (name : String) (attrs : Attributes) : BoundedCSRFParser → Prop
  | opens (hname : isNamed c "form" name = true) (hclosed : s.form = none) (hforms : (s.forms + 1 : Int) ≤ maxForms) :
    StartEffect name attrs
      {s with forms := s.forms + 1, form := some ⟨valueOf c attrs "action" "", valueOf c attrs "method" "GET"⟩}
  | other (hname : isNamed c "form" name = false) (hother : s.form = none ∨ isNamed c "input" name = false) :
    StartEffect name attrs s
  | field (form : FormState) (hinput : isNamed c "input" name = true) (hfields : (s.fields + 1 : Int) ≤ maxFields)
    (hform : s.form = some form) (hsought : isSought c names attrs = false) :
    StartEffect name attrs {s with fields := s.fields + 1}
  | sought (form : FormState) (hinput : isNamed c "input" name = true) (hfields : (s.fields + 1 : Int) ≤ maxFields)
    (hform : s.form = some form) (hsought : isSought c names attrs = true) :
    StartEffect name attrs {s with
      fields := s.fields + 1
      candidates := s.candidates ++ [⟨form.action, form.method, valueOf c attrs "name" "", valueOf c attrs "value" ""⟩]}

theorem startEffect_of_ok {name : String} {attrs : Attributes} (h : handleStarttag c names maxForms maxFields s name attrs = .ok t) :
    (attrs.map fun attr => c.casefold attr.1.toList).Nodup ∧ StartEffect c names maxForms maxFields s name attrs t := by
  obtain ⟨_, hattrs, h⟩ := bind_eq_ok.mp h
  refine ⟨of_decide_eq_true (require_eq_ok.mp hattrs), ?_⟩
  split at h
  · rename_i hname
    obtain ⟨_, hform, h⟩ := bind_eq_ok.mp h
    obtain ⟨_, hforms, h⟩ := bind_eq_ok.mp h
    cases h
    exact .opens hname (Option.isNone_iff_eq_none.mp (require_eq_ok.mp hform)) (of_decide_eq_true (require_eq_ok.mp hforms))
  · rename_i hname
    have hname := Bool.eq_false_iff.mpr hname
    split at h
    · rename_i hform
      cases h
      exact .other hname (.inl hform)
    · rename_i form hform
      split at h
      · rename_i hinput
        cases h
        exact .other hname (.inr ((Bool.not_eq_true' _).mp hinput))
      · rename_i hinput
        have hinput : isNamed c "input" name = true := by simpa using hinput
        obtain ⟨_, hfields, h⟩ := bind_eq_ok.mp h
        have hfields := of_decide_eq_true (require_eq_ok.mp hfields)
        split at h
        · rename_i hsought
          cases h
          exact .field form hinput hfields hform ((Bool.not_eq_true' _).mp hsought)
        · rename_i hsought
          obtain ⟨_, _, h⟩ := bind_eq_ok.mp h
          cases h
          exact .sought form hinput hfields hform (by simpa using hsought)

theorem countP_start (name : String) (attrs : Attributes) : (tags ++ [Tag.start name attrs]).countP (Tag.opensForm c) =
    tags.countP (Tag.opensForm c) + if isNamed c "form" name then 1 else 0 := by
  rw [List.countP_append, List.countP_singleton]
  rfl

theorem fieldCount_start (name : String) (attrs : Attributes) : fieldCount c (tags ++ [Tag.start name attrs]) =
    fieldCount c tags + if isNamed c "input" name && (openForm c tags).isSome then 1 else 0 :=
  fieldCount_concat tags (.start name attrs)

/-- A tag that is no hidden input in a form adds no candidate. -/
theorem candidates_same (h : Follows c names maxForms maxFields tags s) {name : String} {attrs : Attributes}
    (hnone : ∀ form, isNamed c "input" name = true → openForm c tags = some form → isSought c names attrs = false)
    (candidate : Candidate) : candidate ∈ s.candidates ↔
      ∃ form attrs', HiddenInput c names (tags ++ [.start name attrs]) form attrs' ∧ candidate = candidateOf c form attrs' := by
  rw [h.candidates]
  constructor
  · intro ⟨form, attrs', hhidden, heq⟩
    exact ⟨form, attrs', hiddenInput_start.mpr (.inl hhidden), heq⟩
  · intro ⟨form, attrs', hhidden, heq⟩
    obtain hhidden | ⟨-, hinput, hform, hsought⟩ := hiddenInput_start.mp hhidden
    · exact ⟨form, attrs', hhidden, heq⟩
    · rw [hnone form hinput hform] at hsought
      cases hsought

/-- A start tag that passes is taken in as it stands. -/
theorem follows_starttag (h : Follows c names maxForms maxFields tags s) {name : String} {attrs : Attributes}
    (hs : handleStarttag c names maxForms maxFields s name attrs = .ok t) :
    Follows c names maxForms maxFields (tags ++ [.start name attrs]) t := by
  obtain ⟨honce, heffect⟩ := startEffect_of_ok hs
  have hwell := h.toWellFormed.concat (.start name attrs) (fun _ _ htag => by cases htag; exact honce)
  rw [countP_start, fieldCount_start] at hwell
  have hopen : ∀ form, s.form = some form → ∃ formAttrs, openForm c tags = some formAttrs ∧
      form = ⟨valueOf c formAttrs "action" "", valueOf c formAttrs "method" "GET"⟩ := by
    intro form hform
    rw [h.form, Option.map_eq_some_iff] at hform
    obtain ⟨formAttrs, hopen, heq⟩ := hform
    exact ⟨formAttrs, hopen, heq.symm⟩
  cases heffect with
  | opens hname hclosed hforms =>
    have hopen : openForm c tags = none := by
      rw [h.form] at hclosed
      exact Option.map_eq_none_iff.mp hclosed
    have hforms' := h.formCount
    have hfields := h.fields
    have hwell := hwell (fun _ _ htag _ => by cases htag; exact hopen)
      (by rw [hname]; simp only [if_true]; omega) (by rw [hopen]; simpa using hfields)
    exact {hwell with
      form := by rw [openForm_start, hname]; rfl
      formCount := by rw [countP_start, hname, ← h.formCount]; rfl
      inputCount := by rw [fieldCount_start, hopen, ← h.inputCount]; simp
      candidates := candidates_same h fun form _ hform => by rw [hopen] at hform; cases hform }
  | other hname hother =>
    have hnot : (isNamed c "input" name && (openForm c tags).isSome) = false := by
      obtain hclosed | hinput := hother
      · rw [h.form, Option.map_eq_none_iff] at hclosed
        rw [hclosed]
        simp
      · rw [hinput]
        rfl
    have hwell := hwell (fun _ _ htag hform => by cases htag; rw [hname] at hform; cases hform)
      (by rw [hname]; simpa using h.forms) (by rw [hnot]; simpa using h.fields)
    exact {hwell with
      form := by rw [openForm_start, hname]; exact h.form
      formCount := by rw [countP_start, hname]; exact h.formCount
      inputCount := by rw [fieldCount_start, hnot]; exact h.inputCount
      candidates := candidates_same h fun form hinput hform => by rw [hinput, hform] at hnot; cases hnot }
  | field form hinput hfields hform hsought =>
    obtain ⟨formAttrs, hopen, -⟩ := hopen form hform
    have hname := isForm_of_isInput hinput
    have hcount := h.inputCount
    have hwell := hwell (fun _ _ htag hform => by cases htag; rw [hname] at hform; cases hform)
      (by rw [hname]; simpa using h.forms) (by rw [hinput, hopen]; simp; omega)
    exact {hwell with
      form := by rw [openForm_start, hname]; exact h.form
      formCount := by rw [countP_start, hname]; exact h.formCount
      inputCount := by rw [fieldCount_start, hinput, hopen, ← h.inputCount]; rfl
      candidates := candidates_same h fun _ _ _ => hsought }
  | sought form hinput hfields hform hsought =>
    obtain ⟨formAttrs, hopen, rfl⟩ := hopen form hform
    have hname := isForm_of_isInput hinput
    have hcount := h.inputCount
    have hwell := hwell (fun _ _ htag hform => by cases htag; rw [hname] at hform; cases hform)
      (by rw [hname]; simpa using h.forms) (by rw [hinput, hopen]; simp; omega)
    exact {hwell with
      form := by rw [openForm_start, hname]; exact h.form
      formCount := by rw [countP_start, hname]; exact h.formCount
      inputCount := by rw [fieldCount_start, hinput, hopen, ← h.inputCount]; rfl
      candidates := by
        intro candidate
        rw [List.mem_append, h.candidates, List.mem_singleton]
        constructor
        · intro hmem
          obtain ⟨form, attrs', hhidden, heq⟩ | heq := hmem
          · exact ⟨form, attrs', hiddenInput_start.mpr (.inl hhidden), heq⟩
          · exact ⟨formAttrs, attrs, hiddenInput_start.mpr (.inr ⟨rfl, hinput, hopen, hsought⟩), heq⟩
        · intro ⟨form, attrs', hhidden, heq⟩
          obtain hhidden | ⟨rfl, -, hform, -⟩ := hiddenInput_start.mp hhidden
          · exact .inl ⟨form, attrs', hhidden, heq⟩
          · cases hopen.symm.trans hform
            exact .inr heq }

theorem follows_tag (h : Follows c names maxForms maxFields tags s) {tag : Tag}
    (hs : handleTag c names maxForms maxFields s tag = .ok t) : Follows c names maxForms maxFields (tags ++ [tag]) t := by
  cases tag with
  | start name attrs => exact follows_starttag h hs
  | finish name =>
    cases hs
    exact follows_endtag h name

/-- **A page that the parser goes through is well-formed, and it knows the hidden inputs in it.** -/
theorem follows_of_feed (hforms : 0 ≤ maxForms) (hfields : 0 ≤ maxFields) {stream : List Tag × Bool}
    (hs : feed c names maxForms maxFields stream = .ok s) : stream.2 = true ∧ Follows c names maxForms maxFields stream.1 s := by
  unfold feed at hs
  dsimp only at hs
  split at hs
  · rename_i s' hrun
    split at hs
    · rename_i hwhole
      cases hs
      have hstep : ∀ before tag s t, Follows c names maxForms maxFields before s →
          handleTag c names maxForms maxFields s tag = .ok t → Follows c names maxForms maxFields (before ++ [tag]) t :=
        fun _ _ _ _ h hs => follows_tag h hs
      exact ⟨hwhole, foldlM_history hstep (follows_start hforms hfields) hrun⟩
    · cases hs
  · cases hs
  · cases hs

end

/-! ### Candidates that count -/

section
variable {source origin : String} {expected : Option String}

theorem isHttps_of_httpsUrl {url url' : String} (h : httpsUrl c url = .ok url') : ∃ rest, url'.toList = "https".toList ++ ':' :: rest := by
  unfold httpsUrl at h
  simp only [bind_eq_ok, require_eq_ok, ofOption_eq_ok] at h
  obtain ⟨parts, -, _, -, _, -, _, -, _, -, origin, -, originParts, -, h⟩ := h
  cases h
  have hscheme : "https".toList ≠ [] := by decide
  obtain ⟨rest, hrest⟩ := urlunsplit_eq (p := {
    scheme := "https".toList
    netloc := originParts.netloc
    path := if parts.path.isEmpty then ['/'] else parts.path
    query := parts.query
    fragment := [] }) hscheme
  exact ⟨rest, by rw [String.toList_ofList, hrest]⟩

theorem httpsUrl_of_resolved {url action : String} (h : resolved c source url = some action) :
    ∃ joined, httpsUrl c joined = .ok action := by
  obtain ⟨joined, -, h⟩ := Option.bind_eq_some_iff.mp h
  exact ⟨_, toOption_eq_some.mp h⟩

theorem create_eq_ok {formAction method fieldName token : String} {material : CSRFTokenMaterial}
    (h : CSRFTokenMaterial.create c source formAction method fieldName token = .ok material) :
    httpsUrl c source = .ok material.sourceUrl ∧ httpsUrl c formAction = .ok material.formAction ∧
      material.formMethod = normalizedMethod c method ∧ material.fieldName = fieldName ∧ material.token = token := by
  obtain ⟨sourceUrl, hsource, h⟩ := bind_eq_ok.mp h
  obtain ⟨action, haction, h⟩ := bind_eq_ok.mp h
  obtain ⟨method', hmethod, h⟩ := bind_eq_ok.mp h
  obtain ⟨_, -, h⟩ := bind_eq_ok.mp h
  obtain ⟨_, -, h⟩ := bind_eq_ok.mp h
  obtain ⟨_, _, h⟩ := bind_eq_ok.mp h
  obtain ⟨_, _, h⟩ := bind_eq_ok.mp h
  obtain ⟨_, _, h⟩ := bind_eq_ok.mp h
  cases h
  obtain ⟨_, _, hmethod⟩ := bind_eq_ok.mp hmethod
  cases hmethod
  exact ⟨hsource, haction, rfl, rfl, rfl⟩

variable (c source origin expected) in
/-- A candidate whose form leads back to the page, and to the action that is asked for. -/
structure LeadsBack (candidate : Candidate) (action : String) : Prop where
  resolves : resolved c source (actionOr source candidate.action) = some action
  sameOrigin : canonicalOrigin c action = some origin
  asked : ∀ action' ∈ expected, action = action'

variable (c) in
/-- What a candidate is told apart by, beside its action. -/
def keyOf (candidate : Candidate) (action : String) : Key :=
  (action, normalizedMethod c candidate.method, candidate.name, candidate.token)

/-- A candidate is accepted if it leads back, and only then; its material says the same as its key. -/
theorem acceptCandidate_eq_ok {candidate : Candidate} {result : Option (Key × CSRFTokenMaterial)}
    (h : acceptCandidate c source origin expected candidate = .ok result) :
    (∀ action, LeadsBack c source origin expected candidate action → ∃ material, result = some (keyOf c candidate action, material)) ∧
      ∀ key material, result = some (key, material) → ∃ action, LeadsBack c source origin expected candidate action ∧
        key = keyOf c candidate action ∧ httpsUrl c source = .ok material.sourceUrl ∧ httpsUrl c action = .ok material.formAction ∧
          (action, material.formMethod, material.fieldName, material.token) = key := by
  unfold acceptCandidate at h
  split at h
  · rename_i hnone
    cases h
    refine ⟨fun action hback => ?_, nofun⟩
    rw [hback.resolves] at hnone
    cases hnone
  · rename_i action haction
    obtain ⟨origin', horigin, h⟩ := bind_eq_ok.mp h
    have horigin := ofOption_eq_ok.mp horigin
    split at h
    · rename_i hother
      cases h
      refine ⟨fun action' hback => ?_, nofun⟩
      cases haction.symm.trans hback.resolves
      cases horigin.symm.trans hback.sameOrigin
      obtain hne | hany := hother
      · exact absurd rfl hne
      · obtain ⟨action', hmem, hne⟩ := (Option.any_eq_true _ _).mp hany
        exact absurd (hback.asked action' hmem).symm (of_decide_eq_true hne)
    · rename_i hsame
      obtain ⟨hsame, hexpected⟩ := not_or.mp hsame
      have hback : LeadsBack c source origin expected candidate action := by
        refine ⟨haction, horigin.trans (congrArg some (not_not.mp hsame)), fun action' hmem => ?_⟩
        by_contra hne
        exact hexpected ((Option.any_eq_true _ _).mpr ⟨action', hmem, decide_eq_true fun heq => hne heq.symm⟩)
      obtain ⟨material, hmaterial, h⟩ := bind_eq_ok.mp h
      obtain ⟨hsource, hform, hmethod, hname, htoken⟩ := create_eq_ok hmaterial
      cases h
      refine ⟨fun action' hback' => ?_, fun key material' heq => ?_⟩
      · cases haction.symm.trans hback'.resolves
        exact ⟨material, by rw [hmethod]; rfl⟩
      · cases heq
        exact ⟨action, hback, by rw [hmethod]; rfl, hsource, hform, by rw [hname, htoken]⟩

variable (c source origin expected) in
/-- What was accepted of some candidates: the key of each that leads back, and nothing else. -/
structure Gathered (candidates : List Candidate) (accepted : Dict Key CSRFTokenMaterial) : Prop where
  all : ∀ candidate ∈ candidates, ∀ action, LeadsBack c source origin expected candidate action →
    (accepted.get? (keyOf c candidate action)).isSome = true
  only : ∀ key material, accepted.get? key = some material → ∃ candidate ∈ candidates, ∃ action,
    LeadsBack c source origin expected candidate action ∧ key = keyOf c candidate action ∧
      httpsUrl c source = .ok material.sourceUrl ∧ httpsUrl c action = .ok material.formAction ∧
      (action, material.formMethod, material.fieldName, material.token) = key

theorem gathered_turn {candidates : List Candidate} {accepted accepted' : Dict Key CSRFTokenMaterial} {candidate : Candidate}
    (hg : Gathered c source origin expected candidates accepted) (h : acceptTurn c source origin expected accepted candidate = .ok accepted') :
    Gathered c source origin expected (candidates ++ [candidate]) accepted' := by
  obtain ⟨result, hresult, h⟩ := bind_eq_ok.mp h
  obtain ⟨hback, honly⟩ := acceptCandidate_eq_ok hresult
  cases result with
  | none =>
    cases h
    constructor
    · intro candidate' hmem action hleads
      obtain hmem | hmem := List.mem_append.mp hmem
      · exact hg.all candidate' hmem action hleads
      · rw [List.mem_singleton.mp hmem] at hleads
        obtain ⟨material, hnone⟩ := hback action hleads
        cases hnone
    · intro key material hget
      obtain ⟨candidate', hmem, h⟩ := hg.only key material hget
      exact ⟨candidate', List.mem_append_left _ hmem, h⟩
  | some entry =>
    obtain ⟨key, material⟩ := entry
    cases h
    constructor
    · intro candidate' hmem action hleads
      rw [Dict.get?_set]
      split
      · rfl
      · rename_i hne
        obtain hmem | hmem := List.mem_append.mp hmem
        · exact hg.all candidate' hmem action hleads
        · rw [List.mem_singleton.mp hmem] at hleads hne
          obtain ⟨material', heq⟩ := hback action hleads
          cases heq
          exact absurd rfl hne
    · intro key' material' hget
      rw [Dict.get?_set] at hget
      split at hget
      · rename_i heq
        cases hget
        cases heq
        obtain ⟨action, h⟩ := honly key material rfl
        exact ⟨candidate, List.mem_append_right _ (List.mem_singleton_self _), action, h⟩
      · obtain ⟨candidate', hmem, h⟩ := hg.only key' material' hget
        exact ⟨candidate', List.mem_append_left _ hmem, h⟩

theorem gathered_of_loop {candidates : List Candidate} {accepted : Dict Key CSRFTokenMaterial}
    (h : candidates.foldlM (acceptTurn c source origin expected) ∅ = .ok accepted) :
    Gathered c source origin expected candidates accepted := by
  have hstep : ∀ before candidate s t, Gathered c source origin expected before s →
      acceptTurn c source origin expected s candidate = .ok t → Gathered c source origin expected (before ++ [candidate]) t :=
    fun _ _ _ _ hg h => gathered_turn hg h
  have hstart : Gathered c source origin expected [] ∅ := by
    constructor
    · exact nofun
    · intro key material hget
      rw [Dict.get?_empty] at hget
      cases hget
  exact foldlM_history hstep hstart h

/-- One material is left only if there is one key. -/
theorem onlyMaterial_eq_ok {accepted : Dict Key CSRFTokenMaterial} {material : CSRFTokenMaterial}
    (h : onlyMaterial accepted = .ok material) : ∃ key, accepted.get? key = some material ∧
      ∀ key', (accepted.get? key').isSome = true → key' = key := by
  unfold onlyMaterial at h
  split at h
  · cases h
  · rename_i material' hvalues
    cases h
    obtain ⟨entry, hentries, rfl⟩ := List.map_eq_singleton_iff.mp hvalues
    refine ⟨entry.1, (Dict.get?_eq_some_iff accepted entry.1 entry.2).mpr ?_, fun key' hkey => ?_⟩
    · rw [hentries]
      exact List.mem_singleton_self _
    · obtain ⟨material', hget⟩ := Option.isSome_iff_exists.mp hkey
      have hmem := (Dict.get?_eq_some_iff accepted key' material').mp hget
      rw [hentries] at hmem
      exact congrArg Prod.fst (List.mem_singleton.mp hmem)
  · cases h

end

/-! ### The token -/

/-- An HTTPS URL is put into the form of every target. -/
theorem httpsUrl_eq_ok (hc : c.Idna) {url source : String} (h : httpsUrl c url = .ok source) {parts : SplitResult}
    {encoded : List Char} {port : Option Nat} (hread : ReadAs c url parts encoded port) :
    source = String.ofList (urlunsplit (normalForm c parts encoded port)) := by
  unfold httpsUrl at h
  simp only [bind_eq_ok, require_eq_ok, ofOption_eq_ok] at h
  obtain ⟨parts', hparts, _, hscheme, _, -, _, -, _, -, origin, horigin, originParts, hsplit, h⟩ := h
  cases h
  cases hread.split.symm.trans hparts
  rw [lower_of_urlsplit hparts, decide_eq_true_eq] at hscheme
  have hstripped : ReadAs c (String.ofList (strip url.toList)) parts encoded port := by
    refine ⟨?_, hread.scheme, hread.userinfo, hread.hostname, hread.idna, hread.port⟩
    rw [String.toList_ofList, strip_strip]
    exact hparts
  cases hstripped.canonicalOrigin_eq.symm.trans horigin
  have hsite := hread.isScheme.urlsplit_rest c.toTables (hread.netloc_unsplit hc)
    (List.forall_mem_nil _) (by simp)
  rw [List.append_nil] at hsite
  rw [String.toList_ofList] at hsplit
  obtain ⟨-, heq⟩ := Option.ite_none_right_eq_some.mp (hsite.symm.trans hsplit)
  cases heq
  rw [← hscheme]
  rfl

/-- The origin that counts is that of the page as it was given, wherever a second reading of its URL
changes nothing. -/
theorem canonicalOrigin_page (hc : c.Idna) {url source : String} (h : httpsUrl c url = .ok source) {parts : SplitResult}
    {encoded : List Char} {port : Option Nat} (hread : ReadAs c url parts encoded port) (hsteady : Steady c parts encoded) :
    canonicalOrigin c source = canonicalOrigin c url := by
  rw [httpsUrl_eq_ok hc h hread]
  exact hread.canonicalOrigin_again hc hsteady

variable (c) in
/-- A sought hidden input, in a form that leads to an action of the page's origin, and to the one that is
asked for. -/
def Qualifies (names : List (List Char)) (source origin : String) (asked : Option String) (tags : List Tag)
    (action method name token : String) : Prop :=
  ∃ form attrs, HiddenInput c names tags form attrs ∧
    resolved c source (actionOr source (valueOf c form "action" "")) = some action ∧ canonicalOrigin c action = some origin ∧
    (∀ url ∈ asked, resolved c source url = some action) ∧ method = normalizedMethod c (valueOf c form "method" "GET") ∧
    name = valueOf c attrs "name" "" ∧ token = valueOf c attrs "value" ""

theorem resolved_of_expectedUrl {source origin : String} {asked expected : Option String}
    (h : expectedUrl c source origin asked = .ok expected) {action : String} :
    (∀ action' ∈ expected, action = action') ↔ ∀ url ∈ asked, resolved c source url = some action := by
  cases asked with
  | none =>
    cases h
    simp
  | some url =>
    obtain ⟨joined, hjoined, h⟩ := bind_eq_ok.mp h
    obtain ⟨url', hurl, h⟩ := bind_eq_ok.mp h
    obtain ⟨_, -, h⟩ := bind_eq_ok.mp h
    obtain ⟨_, _, h⟩ := bind_eq_ok.mp h
    cases h
    have hresolved : resolved c source url = some url' :=
      Option.bind_eq_some_iff.mpr ⟨joined, ofOption_eq_ok.mp hjoined, toOption_eq_some.mpr hurl⟩
    simp [hresolved, eq_comm]

/-- The inputs that qualify are the candidates that lead back. -/
theorem qualifies_iff {names : List (List Char)} {maxForms maxFields : Int} {tags : List Tag} {s : BoundedCSRFParser}
    {source origin : String} {asked expected : Option String} (hs : Follows c names maxForms maxFields tags s)
    (hexpected : expectedUrl c source origin asked = .ok expected) {action method name token : String} :
    Qualifies c names source origin asked tags action method name token ↔ ∃ candidate ∈ s.candidates,
      LeadsBack c source origin expected candidate action ∧ (action, method, name, token) = keyOf c candidate action := by
  constructor
  · intro ⟨form, attrs, hhidden, hresolves, horigin, hasked, hmethod, hname, htoken⟩
    refine ⟨candidateOf c form attrs, (hs.candidates _).mpr ⟨form, attrs, hhidden, rfl⟩, ?_, ?_⟩
    · exact ⟨hresolves, horigin, (resolved_of_expectedUrl hexpected).mpr hasked⟩
    · rw [hmethod, hname, htoken]
      rfl
  · intro ⟨candidate, hmem, hleads, hkey⟩
    obtain ⟨form, attrs, hhidden, rfl⟩ := (hs.candidates candidate).mp hmem
    simp only [keyOf, Prod.mk.injEq] at hkey
    obtain ⟨-, hmethod, hname, htoken⟩ := hkey
    exact ⟨form, attrs, hhidden, hleads.resolves, hleads.sameOrigin, (resolved_of_expectedUrl hexpected).mp hleads.asked,
      hmethod, hname, htoken⟩

theorem boundedLimit_eq_ok {value maximum : Int} {message : String} {u : Unit} (h : boundedLimit value maximum message = .ok u) :
    1 ≤ value ∧ value ≤ maximum := by
  have h := require_eq_ok.mp h
  simp only [Bool.not_eq_true', Bool.or_eq_false_iff, decide_eq_false_iff_not] at h
  omega

/-- **A token that is given out is the value of a sought hidden input of a well-formed page, in a form
that leads back to the page, and every such input of the page says the same.** -/
theorem extractCsrfToken_sound (c : Codecs) (htmlParser : HTMLParser) (html : Html) (pageUrl : String) (o : Options)
    (material : CSRFTokenMaterial) (h : extractCsrfToken c htmlParser html pageUrl o = .ok material) :
    ∃ source origin text size tags, httpsUrl c pageUrl = .ok source ∧ canonicalOrigin c source = some origin ∧
      (∀ parts encoded port, c.Idna → ReadAs c pageUrl parts encoded port → Steady c parts encoded →
        canonicalOrigin c pageUrl = some origin) ∧
      html.read = some (text, size) ∧ htmlParser text = (tags, true) ∧ WellFormed c o.maxForms o.maxFields tags ∧
      ∃ action, Qualifies c (normalizedNames c o.fieldNames) source origin o.expectedAction tags action
          material.formMethod material.fieldName material.token ∧
        (∃ rest, action.toList = "https".toList ++ ':' :: rest) ∧ httpsUrl c action = .ok material.formAction ∧
        ∀ action' method name token,
          Qualifies c (normalizedNames c o.fieldNames) source origin o.expectedAction tags action' method name token →
            (action', method, name, token) = (action, material.formMethod, material.fieldName, material.token) := by
  obtain ⟨_, _, h⟩ := bind_eq_ok.mp h
  obtain ⟨_, hmaxForms, h⟩ := bind_eq_ok.mp h
  obtain ⟨_, hmaxFields, h⟩ := bind_eq_ok.mp h
  obtain ⟨source, hsource, h⟩ := bind_eq_ok.mp h
  obtain ⟨origin, horigin, h⟩ := bind_eq_ok.mp h
  obtain ⟨expected, hexpected, h⟩ := bind_eq_ok.mp h
  obtain ⟨⟨text, size⟩, hread, h⟩ := bind_eq_ok.mp h
  obtain ⟨_, _, h⟩ := bind_eq_ok.mp h
  obtain ⟨_, _, h⟩ := bind_eq_ok.mp h
  obtain ⟨s, hfeed, h⟩ := bind_eq_ok.mp h
  obtain ⟨accepted, haccepted, h⟩ := bind_eq_ok.mp h
  have horigin := ofOption_eq_ok.mp horigin
  have := boundedLimit_eq_ok hmaxForms
  have := boundedLimit_eq_ok hmaxFields
  obtain ⟨hwhole, hfollows⟩ := follows_of_feed (by omega) (by omega) hfeed
  have hgathered := gathered_of_loop haccepted
  obtain ⟨key, hkey, honly⟩ := onlyMaterial_eq_ok h
  obtain ⟨candidate, hmem, action, hleads, hcandidate, -, hform, hfields⟩ := hgathered.only key material hkey
  have hqualifies : ∀ action method name token, Qualifies c (normalizedNames c o.fieldNames) source origin o.expectedAction
      (htmlParser text).1 action method name token ↔ ∃ candidate ∈ s.candidates,
        LeadsBack c source origin expected candidate action ∧ (action, method, name, token) = keyOf c candidate action :=
    fun _ _ _ _ => qualifies_iff hfollows hexpected
  refine ⟨source, origin, text, size, (htmlParser text).1, hsource, horigin, ?_, ofOption_eq_ok.mp hread,
    Prod.ext rfl hwhole, hfollows.toWellFormed, action, ?_, ?_, hform, ?_⟩
  · intro parts encoded port hc hpage hsteady
    rw [← canonicalOrigin_page hc hsource hpage hsteady]
    exact horigin
  · exact (hqualifies _ _ _ _).mpr ⟨candidate, hmem, hleads, hfields.trans hcandidate⟩
  · obtain ⟨joined, hjoined⟩ := httpsUrl_of_resolved hleads.resolves
    exact isHttps_of_httpsUrl hjoined
  · intro action' method name token hother
    obtain ⟨candidate', hmem', hleads', hkey'⟩ := (hqualifies _ _ _ _).mp hother
    rw [hkey', hfields]
    exact honly _ (hgathered.all candidate' hmem' action' hleads')

/-- A page with one form. -/
def loginPage : Text := Text.ofString
  "<form action=\"/submit\" method=\"post\"><input type=\"hidden\" name=\"csrf_token\" value=\"secret\"></form>"

/-- The tags of that page. -/
def loginTags : HTMLParser := fun text =>
  if text = loginPage then
    ([.start "form" [("action", some "/submit"), ("method", some "post")],
      .start "input" [("type", some "hidden"), ("name", some "csrf_token"), ("value", some "secret")], .finish "form"], true)
  else ([], true)

theorem login_page_qualifies : ∃ source origin tags action, loginTags loginPage = (tags, true) ∧
    Qualifies plainCodecs (normalizedNames plainCodecs defaultCsrfFieldNames) source origin none tags action
      "POST" "csrf_token" "secret" := by
  have hextract : (extractCsrfToken plainCodecs loginTags (.text loginPage) "https://example.com/form" {}).toOption =
      some ⟨"https://example.com/form", "https://example.com/submit", "POST", "csrf_token", "secret"⟩ := by
    decide +kernel
  obtain ⟨source, origin, text, size, tags, -, -, -, hread, htags, -, action, hqualifies, -⟩ :=
    extractCsrfToken_sound plainCodecs loginTags (.text loginPage) "https://example.com/form" {} _ (toOption_eq_some.mp hextract)
  have htext : text = loginPage := by
    unfold Html.read at hread
    obtain ⟨raw, -, heq⟩ := Option.map_eq_some_iff.mp hread
    exact (congrArg Prod.fst heq).symm
  exact ⟨source, origin, tags, action, htext ▸ htags, hqualifies⟩

end

end Fetech.AuthFlows
