import Fetech.Parsers.Wellmade

/-! The blocks of an XML document (`fetech/adapters/documents.py`, `_parse_xml`).

The parser walks a stack of elements, and it names each by the steps that lead to it. An entry of the
stack is above nothing else that is on it or was visited (`Separate`), so no element is named twice;
and a step is read back from its text, since a tag ends where a bracket begins. -/
namespace Fetech.Parsers
open Lib Lib.Except Archive JsonText

variable {φ : Type} {f : Floats φ}

/-! ### Steps and positions -/

/-- A tag and how many with it have come so far. -/
abbrev XmlPosition := List (Text × Nat)

def XmlPosition.text (position : XmlPosition) : Text := position.flatMap fun step => xmlStep step.1 step.2

theorem bracket_notMem_writeNat (n : Nat) : rightBracket ∉ writeNat n := fun hmem =>
  absurd ((whole_writeNat n).1.2 rightBracket hmem) (by decide)

/-- A tag ends where a bracket begins. -/
theorem tag_inj {tag tag' rest rest' : Text} (htag : IsTag tag) (htag' : IsTag tag')
    (h : tag ++ leftBracket :: rest = tag' ++ leftBracket :: rest') : tag = tag' ∧ rest = rest' := by
  have hlocal : ∀ {name name' rest rest' : Text}, LocalName name → LocalName name' →
      name ++ leftBracket :: rest = name' ++ leftBracket :: rest' → name = name' ∧ rest = rest' := by
    intro name name' rest rest' hname hname' heq
    exact Lists.append_cons_inj hname.2 hname'.2 heq
  have hmixed : ∀ {name uri rest rest' : Text}, LocalName name → name ++ leftBracket :: rest ≠ leftBrace :: uri ++ rest' := by
    intro name uri rest rest' hname heq
    cases name with
    | nil => exact absurd (List.cons.inj heq).1 (by decide)
    | cons c name => exact hname.1 ((List.cons.inj heq).1 ▸ List.mem_cons_self)
  obtain hname | ⟨uri, name, rfl, huri, hname⟩ := htag
  · obtain hname' | ⟨uri', name', rfl, -, -⟩ := htag'
    · exact hlocal hname hname' h
    · rw [List.append_assoc] at h
      exact absurd h (hmixed hname)
  · obtain hname' | ⟨uri', name', rfl, huri', hname'⟩ := htag'
    · rw [List.append_assoc] at h
      exact absurd h.symm (hmixed hname')
    · simp only [List.append_assoc, List.cons_append] at h
      obtain ⟨rfl, hnames⟩ := Lists.append_cons_inj huri huri' (List.cons.inj h).2
      obtain ⟨rfl, hrest⟩ := hlocal hname hname' hnames
      exact ⟨rfl, hrest⟩

theorem xmlStep_inj {step step' : Text × Nat} {rest rest' : Text} (htag : IsTag step.1) (htag' : IsTag step'.1)
    (h : xmlStep step.1 step.2 ++ rest = xmlStep step'.1 step'.2 ++ rest') : step = step' ∧ rest = rest' := by
  simp only [xmlStep, List.append_assoc, List.cons_append, List.nil_append] at h
  obtain ⟨hsame, hcount⟩ := tag_inj htag htag' (List.cons.inj h).2
  obtain ⟨hdigits, hrest⟩ := Lists.append_cons_inj (bracket_notMem_writeNat _) (bracket_notMem_writeNat _) hcount
  exact ⟨Prod.ext hsame (JsonPointer.writeNat_injective hdigits), hrest⟩

/-- **A position is read back from its text.** -/
theorem XmlPosition.text_inj {position position' : XmlPosition} (htags : ∀ step ∈ position, IsTag step.1)
    (htags' : ∀ step ∈ position', IsTag step.1) (h : position.text = position'.text) : position = position' := by
  induction position generalizing position' with
  | nil =>
    cases position' with
    | nil => rfl
    | cons step rest => cases h
  | cons step rest ih =>
    cases position' with
    | nil => cases h
    | cons step' rest' =>
      rw [List.forall_mem_cons] at htags htags'
      obtain ⟨rfl, hrest⟩ := xmlStep_inj htags.1 htags'.1 h
      rw [ih htags.2 htags'.2 hrest]

/-! ### Children -/

/-- The steps to the children of an element. -/
def xmlSteps (children : List Element) : XmlPosition :=
  children.mapIdx fun index child => (child.tag, (children.take index).countP (·.tag = child.tag) + 1)

/-- A child is not counted among those before it. -/
theorem nodup_xmlSteps (children : List Element) : (xmlSteps children).Nodup := by
  rw [List.Nodup, List.pairwise_iff_getElem]
  intro i k hi hk hik heq
  simp only [xmlSteps, List.length_mapIdx] at hi hk
  simp only [xmlSteps, List.getElem_mapIdx, Prod.mk.injEq] at heq
  obtain ⟨htag, hcount⟩ := heq
  have hnext : (children.take (i + 1)).countP (·.tag = children[k].tag) =
      (children.take i).countP (·.tag = children[k].tag) + 1 := by
    rw [← List.take_append_getElem hi, List.countP_append, List.countP_singleton]
    simp [htag]
  have hle : (children.take (i + 1)).countP (·.tag = children[k].tag) ≤ (children.take k).countP (·.tag = children[k].tag) :=
    (List.take_sublist_take_left hik).countP_le
  rw [htag] at hcount
  omega

/-- A frame is where its path says. -/
structure Placed (frame : XmlFrame) (position : XmlPosition) : Prop where
  path : frame.path = position.text
  tags : ∀ step ∈ position, IsTag step.1
  element : frame.element.WellFormed

theorem isTag_of_wellFormed {element : Element} (h : element.WellFormed) : IsTag element.tag := by
  cases h with
  | node htag _ _ => exact htag

theorem wellFormed_child {element child : Element} (h : element.WellFormed) (hmem : child ∈ element.children) :
    child.WellFormed := by
  cases h with
  | node _ _ hchildren => exact hchildren child hmem

theorem Placed.child {frame child : XmlFrame} {position : XmlPosition} (h : Placed frame position)
    (hmem : child.element ∈ frame.element.children) {count : Nat} (hpath : child.path = frame.path ++ xmlStep child.element.tag count) :
    Placed child (position ++ [(child.element.tag, count)]) where
  path := by
    rw [hpath, h.path, XmlPosition.text, XmlPosition.text, List.flatMap_append, List.flatMap_singleton]
  tags step hstep := by
    obtain hstep | hstep := List.mem_append.mp hstep
    · exact h.tags step hstep
    · rw [List.mem_singleton.mp hstep]
      exact isTag_of_wellFormed (wellFormed_child h.element hmem)
  element := wellFormed_child h.element hmem

theorem Placed.children {frame : XmlFrame} {position : XmlPosition} (h : Placed frame position) :
    List.Forall₂ Placed (xmlChildren frame) ((xmlSteps frame.element.children).map fun step => position ++ [step]) := by
  rw [List.forall₂_iff_get]
  refine ⟨by simp [xmlChildren, xmlSteps], fun i hi hi' => ?_⟩
  simp only [xmlChildren, xmlSteps, List.get_eq_getElem, List.getElem_map, List.getElem_mapIdx]
  exact h.child (List.getElem_mem _) rfl

/-! ### The walk -/

/-- What was visited and what is on the stack are apart. -/
def Walked (visited stack : List XmlFrame) : Prop :=
  ∃ places waiting, List.Forall₂ Placed visited places ∧ List.Forall₂ Placed stack waiting ∧ Lists.Separate places waiting

theorem walked_root {root : Element} (h : root.WellFormed) : Walked [] [⟨root, xmlStep root.tag 1, 0⟩] := by
  refine ⟨[], [[(root.tag, 1)]], .nil, .cons ⟨?_, ?_, h⟩ .nil, Lists.separate_root _⟩
  · exact (List.append_nil _).symm
  · exact List.forall_mem_singleton.mpr (isTag_of_wellFormed h)

theorem Walked.visit {visited stack : List XmlFrame} {frame : XmlFrame} (h : Walked visited (frame :: stack)) :
    Walked (visited ++ [frame]) (xmlChildren frame ++ stack) := by
  obtain ⟨places, waiting, hplaces, hwaiting, hseparate⟩ := h
  cases hwaiting with
  | cons hframe hstack =>
    exact ⟨_, _, List.rel_append hplaces (.cons hframe .nil), List.rel_append hframe.children hstack,
      hseparate.visit (nodup_xmlSteps _)⟩

/-- **The blocks of a document are its elements**, no more than the limit and each at its place. -/
theorem xmlLoop_eq_ok {limits : DocumentLimits} {left : Nat} {visited stack : List XmlFrame} {blocks : List (Block φ)}
    (hwalk : Walked visited stack) (h : xmlLoop limits left stack (visited.map xmlBlock) = .ok blocks) :
    ∃ visited', blocks = visited'.map xmlBlock ∧ Walked visited' [] ∧ visited'.length ≤ visited.length + left := by
  induction left generalizing visited stack with
  | zero =>
    cases stack with
    | nil =>
      cases h
      exact ⟨visited, rfl, hwalk, le_rfl⟩
    | cons frame stack =>
      rw [xmlLoop] at h
      split at h <;> cases h
  | succ left ih =>
    cases stack with
    | nil =>
      cases h
      exact ⟨visited, rfl, hwalk, by omega⟩
    | cons frame stack =>
      rw [xmlLoop] at h
      split at h
      · cases h
      · have hblocks : visited.map xmlBlock ++ [xmlBlock frame] = (visited ++ [frame]).map (xmlBlock (φ := φ)) := by simp
        rw [hblocks] at h
        obtain ⟨visited', hsame, hwalked, hlength⟩ := ih hwalk.visit h
        rw [List.length_append, List.length_singleton] at hlength
        exact ⟨visited', hsame, hwalked, by omega⟩

/-! ### The blocks -/

theorem stringFields_strings (fields : List (Text × Text)) :
    stringFields (φ := φ) (fields.map fun field => (field.1, .string field.2)) = some fields := by
  induction fields with
  | nil => rfl
  | cons field fields ih =>
    rw [stringFields] at ih
    rw [List.map_cons, stringFields, List.mapM_cons, ih]
    rfl

theorem hasUniqueKeys_attributes {attributes : List (Text × Text)} (h : (attributes.map Prod.fst).Nodup) :
    (JsonValue.object (φ := φ) ((JsonPointer.byKey attributes).map fun field => (field.1, .string field.2))).HasUniqueKeys := by
  refine (JsonValue.every_object _).mpr ⟨decide_eq_true ?_, fun field hfield => ?_⟩
  · have hperm : ((JsonPointer.byKey attributes).map Prod.fst).Perm (attributes.map Prod.fst) :=
      (List.perm_insertionSort _ attributes).map _
    rw [List.map_map]
    exact hperm.nodup_iff.mpr h
  · obtain ⟨_, _, rfl⟩ := List.mem_map.mp hfield
    rfl

/-- The text of an element, if it has one. -/
def textFields (text : Text) : List (String × JsonValue φ) := if text.isEmpty then [] else [("text", .string text)]

/-- The attributes of an element, if it has any. -/
def attributeFields (attributes : List (Text × Text)) : List (String × JsonValue φ) :=
  if attributes.isEmpty then []
  else [("attributes", .object ((JsonPointer.byKey attributes).map fun field => (field.1, .string field.2)))]

theorem xmlBlock_node (tag : Text) (text : Option Text) (attributes : List (Text × Text)) (children : List Element) (path : Text)
    (depth : Nat) : xmlBlock (φ := φ) ⟨.node tag text attributes children, path, depth⟩ =
      blockAt (Text.ofString "xpath:" ++ path)
        (("tag", .string tag) :: textFields (Media.strip (text.getD [])) ++ attributeFields attributes) := rfl

section
variable (tag text : Text) (attributes : List (Text × Text))

theorem validate_xmlBlock (locator : Text) :
    validateWorkerBlock f (blockAt locator (("tag", .string tag) :: textFields text ++ attributeFields attributes))
      (Text.ofString "xml_file") = .ok () := by
  have hstrings : (stringFields (φ := φ)
      ((JsonPointer.byKey attributes).map fun field => (field.1, .string field.2))).isSome = true := by
    rw [stringFields_strings]
    rfl
  unfold textFields attributeFields
  simp only [validateWorkerBlock, any_ofString, blockAt_eq, get?_named, all_named]
  cases text.isEmpty with
  | true =>
    cases attributes.isEmpty with
    | true => rfl
    | false => exact require_eq_ok.mpr hstrings
  | false =>
    cases attributes.isEmpty with
    | true => rfl
    | false => exact require_eq_ok.mpr hstrings

theorem keys_xmlBlock :
    ("locator" :: (("tag", JsonValue.string (φ := φ) tag) :: textFields text ++ attributeFields attributes).map Prod.fst).Nodup := by
  unfold textFields attributeFields
  cases text.isEmpty with
  | true => cases attributes.isEmpty <;> simp
  | false => cases attributes.isEmpty <;> simp

theorem hasUniqueKeys_xmlBlock (h : (attributes.map Prod.fst).Nodup) :
    ∀ field ∈ ("tag", JsonValue.string (φ := φ) tag) :: textFields text ++ attributeFields attributes, field.2.HasUniqueKeys := by
  intro field hfield
  simp only [List.mem_append, List.mem_cons] at hfield
  obtain (rfl | htext) | hattributes := hfield
  · rfl
  · unfold textFields at htext
    split at htext
    · cases htext
    · rw [List.mem_singleton.mp htext]
      rfl
  · unfold attributeFields at hattributes
    split at hattributes
    · cases hattributes
    · rw [List.mem_singleton.mp hattributes]
      exact hasUniqueKeys_attributes h

end

theorem wellmadeBlock_xml {frame : XmlFrame} (h : frame.element.WellFormed) :
    WellmadeBlock f "xml_file" "xpath:" (xmlBlock frame) := by
  obtain ⟨⟨tag, text, attributes, children⟩, path, depth⟩ := frame
  cases h with
  | node _ hattributes _ =>
    rw [xmlBlock_node]
    exact ⟨⟨path, _, rfl, keys_xmlBlock _ _ _, hasUniqueKeys_xmlBlock _ _ _ hattributes⟩, fun _ => validate_xmlBlock _ _ _ _⟩

theorem locatorOf_xmlBlock (frame : XmlFrame) : locatorOf (xmlBlock (φ := φ) frame) = Text.ofString "xpath:" ++ frame.path := by
  obtain ⟨⟨tag, text, attributes, children⟩, path, depth⟩ := frame
  rw [xmlBlock_node, locatorOf_blockAt]

theorem paths_of_placed {frames : List XmlFrame} {places : List XmlPosition} (h : List.Forall₂ Placed frames places) :
    frames.map XmlFrame.path = places.map XmlPosition.text ∧ (∀ frame ∈ frames, frame.element.WellFormed) ∧
      ∀ place ∈ places, ∀ step ∈ place, IsTag step.1 := by
  induction h with
  | nil => exact ⟨rfl, List.forall_mem_nil _, List.forall_mem_nil _⟩
  | cons hframe _ ih =>
    refine ⟨?_, List.forall_mem_cons.mpr ⟨hframe.element, ih.2.1⟩, List.forall_mem_cons.mpr ⟨hframe.tags, ih.2.2⟩⟩
    rw [List.map_cons, List.map_cons, hframe.path, ih.1]

/-- **No two elements have one path.** -/
theorem Walked.nodup {visited : List XmlFrame} (h : Walked visited []) : (visited.map XmlFrame.path).Nodup := by
  obtain ⟨places, waiting, hplaces, -, hseparate⟩ := h
  obtain ⟨hpaths, -, htags⟩ := paths_of_placed hplaces
  rw [hpaths]
  exact (List.nodup_append.mp hseparate.nodup).1.map_on fun place hplace place' hplace' =>
    XmlPosition.text_inj (htags place hplace) (htags place' hplace')

theorem wellmade_xml (l : DocumentLibrary φ) {body : List UInt8} {limits : DocumentLimits} {parsed : Parsed φ}
    (h : parseXml l body limits = .ok parsed) :
    Wellmade l.floats "xml_file" parsed ∧ parsed.blocks.length ≤ limits.maximumBlocks := by
  simp only [parseXml, bind_eq_ok] at h
  obtain ⟨_, -, root, hroot, blocks, hloop, hparsed⟩ := h
  cases hparsed
  obtain ⟨visited, rfl, hwalked, hlength⟩ := xmlLoop_eq_ok (walked_root (l.xml_wellFormed body root hroot)) hloop
  refine ⟨wellmade_of_blocks "xpath:" rfl rfl ?_ fun block hblock => ?_, by simpa using hlength⟩
  · have hlocators : locators (visited.map (xmlBlock (φ := φ))) =
        (visited.map XmlFrame.path).map (Text.ofString "xpath:" ++ ·) := by
      rw [locators, List.map_map, List.map_map]
      exact List.map_congr_left fun frame _ => locatorOf_xmlBlock frame
    show (locators (visited.map xmlBlock)).Nodup
    rw [hlocators]
    exact hwalked.nodup.map fun _ _ heq => List.append_cancel_left heq
  · obtain ⟨frame, hframe, rfl⟩ := List.mem_map.mp hblock
    obtain ⟨places, waiting, hplaces, -, -⟩ := hwalked
    exact wellmadeBlock_xml ((paths_of_placed hplaces).2.1 frame hframe)

end Fetech.Parsers
