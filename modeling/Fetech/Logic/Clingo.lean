import Fetech.Logic.Written
import Fetech.Parsers.Rereading
import Fetech.Planning.Names

/-! What the Clingo backend makes of the solver's answers.

The solver gets a text and prints the answer sets of the program that the text denotes. The ids of a
plan stand for themselves between quotes, so the text denotes the rules with the plan's facts, and the
names read out of an answer set are the ids of the nodes it selects. A solver that lists different
answer sets can list one at most, and its selection is the plan's; where a capability is not
implemented there is none to list. -/
namespace Fetech.Logic
open Planning Lib Lib.Except Lib.AnswerSets Lib.LogicPrograms

/-! ### Names, written and read -/

theorem slugChar_range {ch : Char} (h : isSlugChar ch = true) :
    ch.toNat = 0x2d ∨ (0x30 ≤ ch.toNat ∧ ch.toNat ≤ 0x39) ∨ (0x61 ≤ ch.toNat ∧ ch.toNat ≤ 0x7a) := by
  have h : ((decide (97 ≤ ch.val) && decide (ch.val ≤ 122) || decide (48 ≤ ch.val) && decide (ch.val ≤ 57)) || ch == '-') = true := h
  simp only [Bool.or_eq_true, Bool.and_eq_true, decide_eq_true_eq, beq_iff_eq, UInt32.le_iff_toNat_le] at h
  obtain (⟨hlow, hhigh⟩ | ⟨hlow, hhigh⟩) | rfl := h
  · exact .inr (.inr ⟨hlow, hhigh⟩)
  · exact .inr (.inl ⟨hlow, hhigh⟩)
  · exact .inl rfl

theorem plainText_of_slug {id : String} (h : Slug id) : PlainText (Text.ofString id) := by
  apply plainText_of_chars
  apply List.all_eq_true.mpr
  intro ch hch
  have hrange := slugChar_range (h.chars ch hch)
  apply decide_eq_true
  omega

/-- A name that is selected is read back. -/
theorem selectedName_text {id : String} (h : Slug id) : selectedName (Atom.selected id).text = some (Text.ofString id) := by
  have hplain := plainText_of_slug h
  have hstart : Text.ofString "selected(\"" = Text.ofString "selected(" ++ [JsonText.quote] := by decide
  have hstop : Text.ofString "\")" = [JsonText.quote, 0x29] := by decide
  have htext : (Atom.selected id).text =
      Text.ofString "selected(\"" ++ (Text.ofString id ++ [JsonText.quote, 0x29]) := by
    rw [Atom.text, aspString, writeString_plain hplain, hstart]
    simp only [List.cons_append, List.append_assoc, List.nil_append]
    rfl
  have hdrop : (Atom.selected id).text.drop (Text.ofString "selected(\"").length =
      Text.ofString id ++ [JsonText.quote, 0x29] := by
    rw [htext, List.drop_left]
  have hname : (Text.ofString id ++ [JsonText.quote, 0x29]).dropLast.dropLast = Text.ofString id := by simp
  have hprefix : (Text.ofString "selected(\"").isPrefixOf (Atom.selected id).text = true := by
    rw [htext, List.isPrefixOf_iff_prefix]
    exact List.prefix_append _ _
  have hsuffix : (Text.ofString "\")").isSuffixOf (Text.ofString id ++ [JsonText.quote, 0x29]) = true := by
    rw [hstop, List.isSuffixOf_iff_suffix]
    exact List.suffix_append _ _
  have hne : (Text.ofString id).isEmpty = false := by
    rw [List.isEmpty_eq_false_iff, Text.ofString, Ne, List.map_eq_nil_iff]
    exact h.ne_nil
  have hall : (Text.ofString id).all (fun c => c != JsonText.quote && c != JsonText.backslash) = true := by
    rw [List.all_eq_true]
    intro c hc
    obtain ⟨-, -, hquote, hbackslash⟩ := hplain c hc
    rw [Bool.and_eq_true, bne_iff_ne, bne_iff_ne]
    exact ⟨hquote, hbackslash⟩
  simp only [selectedName, hprefix, hdrop, hsuffix, hname, hne, hall, Bool.and_self, Bool.not_false, if_true]

/-! ### The solver, as it is documented -/

section
variable {φ : Type} (library : Parsers.ReaderLibrary φ)

/-- A witness that lists what is shown of an answer set. -/
structure Lists (shown : GroundAtom → Prop) (M : Set GroundAtom) (witness : JsonValue φ) : Prop where
  shown : ∃ fields, ∃ atoms : List GroundAtom, witness = .object fields ∧
    JsonValue.get? fields "Value" = some (.array (atoms.map fun a => .string (a.written.map CodePoint.ofChar))) ∧
    ∀ a, a ∈ atoms ↔ a ∈ M ∧ shown a

/-- Output that lists answer sets, or says by a missing field that there are none. -/
structure Prints (output : List UInt8) (shown : GroundAtom → Prop) (sets : List (Set GroundAtom)) : Prop where
  document : ∃ fields call, loadOutput library output = .ok (.object fields) ∧
    JsonValue.get? fields "Call" = some (.array [.object call]) ∧
    (sets = [] → JsonValue.get? call "Witnesses" = none) ∧
    (sets ≠ [] → ∃ listed, JsonValue.get? call "Witnesses" = some (.array listed) ∧ List.Forall₂ (Lists shown) sets listed)

/-- A solver that answers a text as Clingo documents: it lists different answer sets of the program that
the text denotes, at least one if there is any. -/
def Documented (solver : Solver) (text : Text) : Prop :=
  ∀ chars statements, text = chars.map CodePoint.ofChar → readProgram chars = some statements →
    ∃ result sets, solver.run text = .ok result ∧ [10, 20, 30].contains result.returncode = true ∧
      sets.Nodup ∧ (∀ M ∈ sets, IsAnswerSet (ground statements) M) ∧
      (sets = [] → ∀ M, ¬ IsAnswerSet (ground statements) M) ∧ Prints library result.stdout (isShown statements) sets

variable {library} {output : List UInt8}

theorem mapM_shownAtom (texts : List Text) : (texts.map JsonValue.string : List (JsonValue φ)).mapM shownAtom = .ok texts := by
  induction texts with
  | nil => rfl
  | cons text rest ih =>
    rw [List.map_cons, List.mapM_cons, ih]
    rfl

theorem selectedNodes_none {shown : GroundAtom → Prop} (h : Prints library output shown []) : selectedNodes library output = .error .malformed := by
  obtain ⟨fields, call, hload, hcall, hnone, -⟩ := h.document
  rw [selectedNodes, hload]
  show ofOption _ (witnesses (.object fields)) >>= _ = _
  rw [witnesses, hcall]
  show ofOption _ (JsonValue.get? call "Witnesses") >>= _ = _
  rw [hnone rfl]
  rfl

/-- Of the atoms of a program's answer set those are shown that select a node. -/
theorem mem_shown_iff {atoms : List Atom} {M : Set Atom} {a : GroundAtom} :
    a ∈ Atom.ground '' M ∧ isShown (statementsOf atoms) a ↔ ∃ id, .selected id ∈ M ∧ a = (Atom.selected id).ground := by
  rw [shown_statementsOf]
  constructor
  · rintro ⟨⟨b, hb, rfl⟩, hpredicate, -⟩
    have hname : b.predicate = "selected" := String.toList_inj.mp hpredicate
    cases b with
    | selected id => exact ⟨id, hb, rfl⟩
    | _ => simp [Atom.predicate] at hname
  · rintro ⟨id, hid, rfl⟩
    exact ⟨⟨_, hid, rfl⟩, congrArg String.toList rfl, rfl⟩

/-- What a witness lists of an answer set are the nodes that it selects. -/
theorem exists_selected {atoms : List Atom} {M : Set Atom} {listed : List GroundAtom}
    (hlisted : ∀ a, a ∈ listed ↔ a ∈ Atom.ground '' M ∧ isShown (statementsOf atoms) a) :
    ∃ ids : List String, listed = ids.map (fun id => (Atom.selected id).ground) ∧ ∀ id, id ∈ ids ↔ .selected id ∈ M := by
  have hrange : listed ∈ Set.range (List.map fun id => (Atom.selected id).ground) := by
    rw [Set.range_list_map]
    intro a ha
    obtain ⟨id, -, rfl⟩ := mem_shown_iff.mp ((hlisted a).mp ha)
    exact ⟨id, rfl⟩
  obtain ⟨ids, rfl⟩ := hrange
  refine ⟨ids, rfl, fun id => ?_⟩
  have hname : ∀ {other}, (Atom.selected other).ground = (Atom.selected id).ground ↔ other = id := by
    intro other
    rw [ground_inj.eq_iff, Atom.selected.injEq]
  have hselected := (hlisted (Atom.selected id).ground).trans mem_shown_iff
  simpa [hname, ground_inj.eq_iff] using hselected

/-- A list of selected nodes is read as it was written, if their names are slugs. -/
theorem shownAtoms_selected {fields : List (Text × JsonValue φ)} {ids : List String} (hslug : ∀ id ∈ ids, Slug id)
    (hvalue : JsonValue.get? fields "Value" = some (.array ((ids.map fun id => (Atom.selected id).ground).map fun a =>
      .string (a.written.map CodePoint.ofChar)))) :
    shownAtoms fields = .ok (ids.map fun id => (Atom.selected id).text) := by
  have hplain : ∀ id ∈ ids, ((Atom.selected id).ground.written.map CodePoint.ofChar) = (Atom.selected id).text := by
    intro id hid
    refine (text_ground fun s hs => ?_).symm
    rw [List.mem_singleton.mp hs]
    exact plainText_of_slug (hslug id hid)
  rw [shownAtoms, hvalue]
  show ((ids.map _).map _).mapM shownAtom = _
  rw [← mapM_shownAtom (φ := φ) (ids.map fun id => (Atom.selected id).text), List.map_map, List.map_map]
  refine congrArg (List.mapM shownAtom) (List.map_congr_left fun id hid => ?_)
  exact congrArg JsonValue.string (hplain id hid)

/-- The names that are read out of the one answer set listed. -/
theorem selectedNodes_one {atoms : List Atom} {M : Set Atom}
    (h : Prints library output (isShown (statementsOf atoms)) [Atom.ground '' M]) (hslug : ∀ id, .selected id ∈ M → Slug id) :
    ∃ ids : List String, selectedNodes library output = .ok (ids.map Text.ofString) ∧ ∀ id, id ∈ ids ↔ .selected id ∈ M := by
  obtain ⟨fields, call, hload, hcall, -, hlisted⟩ := h.document
  obtain ⟨listed, hlisted, hshown⟩ := hlisted (List.cons_ne_nil _ _)
  obtain ⟨witness, rest, hwitness, hrest, rfl⟩ := List.forall₂_cons_left_iff.mp hshown
  cases hrest
  obtain ⟨fields', shown, rfl, hvalue, hmem⟩ := hwitness.shown
  obtain ⟨ids, rfl, hids⟩ := exists_selected hmem
  refine ⟨ids, ?_, hids⟩
  have hslugs : ∀ id ∈ ids, Slug id := fun id hid => hslug id ((hids id).mp hid)
  have hread : (ids.map fun id => (Atom.selected id).text).filterMap selectedName = ids.map Text.ofString := by
    rw [List.filterMap_map, List.filterMap_eq_map_iff_forall_eq_some]
    intro id hid
    exact selectedName_text (hslugs id hid)
  rw [selectedNodes, hload]
  show ofOption _ (witnesses (.object fields)) >>= _ = _
  rw [witnesses, hcall]
  show ofOption _ (JsonValue.get? call "Witnesses") >>= _ = _
  rw [hlisted]
  show shownAtoms fields' >>= _ = _
  rw [shownAtoms_selected hslugs hvalue, ← hread]
  rfl

end

/-! ### What the backend proposes -/

section
variable {p : Planner} {request : FetchRequest} {hbudget : request.budget.Valid} {plan : FetchPlan} {version : String}
  {atoms : List Atom}

theorem plan_strings (hplan : p.plan request hbudget = .ok plan) (hversion : PlainText (Text.ofString version))
    (hatoms : facts p.registry version request plan.nodes = .ok atoms) :
    ∀ a ∈ atoms, ∀ s ∈ a.strings, PlainText (Text.ofString s) := by
  obtain ⟨d, -, nodes, -, -, -, -, hvalid, -⟩ := plan_eq_ok hplan
  have hslug := plan_slugs hplan
  have hplain : ∀ node ∈ plan.nodes, PlainText (Text.ofString node.id) := fun node hnode =>
    plainText_of_slug (hslug node hnode)
  intro a ha s hs
  rw [mem_facts hatoms] at ha
  obtain rfl | ⟨node, hnode, _, -, rfl | rfl | ⟨rfl, -⟩ | ⟨rfl, -⟩ | ⟨d, hd, rfl⟩⟩ := ha
  · rw [List.mem_singleton.mp hs]
    exact hversion
  · rw [List.mem_singleton.mp hs]
    exact hplain node hnode
  · rw [List.mem_singleton.mp hs]
    exact hplain node hnode
  · rw [List.mem_singleton.mp hs]
    exact hplain node hnode
  · rw [List.mem_singleton.mp hs]
    exact hplain node hnode
  · obtain ⟨other, hother, rfl⟩ := List.mem_map.mp (validateNodes_closed hvalid node hnode d hd)
    obtain rfl | hs := List.mem_cons.mp hs
    · exact hplain node hnode
    · rw [List.mem_singleton.mp hs]
      exact hplain other hother

/-- The answer sets of what the solver is given are those of the rules, under the names that are written. -/
theorem isAnswerSet_statementsOf (hatoms : facts p.registry version request plan.nodes = .ok atoms) {M : Set GroundAtom} :
    IsAnswerSet (ground (statementsOf atoms)) M ↔
      M = Atom.ground '' selection atoms plan.nodes ∧ Provable p.registry request plan.nodes := by
  rw [ground_statementsOf, isAnswerSet_map ground_inj]
  simp only [isAnswerSet_facts hatoms]
  constructor
  · rintro ⟨N, ⟨rfl, hprovable⟩, rfl⟩
    exact ⟨rfl, hprovable⟩
  · rintro ⟨rfl, hprovable⟩
    exact ⟨_, ⟨rfl, hprovable⟩, rfl⟩

/-- Every list of different answer sets of a plan's program. -/
theorem answers_of_plan
    (hatoms : facts p.registry version request plan.nodes = .ok atoms) {sets : List (Set GroundAtom)} (hnodup : sets.Nodup)
    (hsets : ∀ M ∈ sets, IsAnswerSet (ground (statementsOf atoms)) M)
    (hnone : sets = [] → ∀ M, ¬ IsAnswerSet (ground (statementsOf atoms)) M) :
    (Provable p.registry request plan.nodes ∧ sets = [Atom.ground '' selection atoms plan.nodes]) ∨
      (¬ Provable p.registry request plan.nodes ∧ sets = []) := by
  have heq : ∀ M ∈ sets, M = Atom.ground '' selection atoms plan.nodes := fun M hM =>
    ((isAnswerSet_statementsOf hatoms).mp (hsets M hM)).1
  cases hempty : sets with
  | nil =>
    refine .inr ⟨fun hprovable => ?_, rfl⟩
    exact hnone hempty _ ((isAnswerSet_statementsOf hatoms).mpr ⟨rfl, hprovable⟩)
  | cons M rest =>
    have hM : M ∈ sets := hempty ▸ List.mem_cons_self
    refine .inl ⟨((isAnswerSet_statementsOf hatoms).mp (hsets M hM)).2, ?_⟩
    rw [hempty] at hnodup heq
    cases rest with
    | nil => rw [heq M List.mem_cons_self]
    | cons N rest =>
      have hsame := (heq M List.mem_cons_self).trans (heq N (by simp)).symm
      exact absurd (hsame ▸ List.mem_cons_self) (List.nodup_cons.mp hnodup).1

theorem selected_selection (hatoms : facts p.registry version request plan.nodes = .ok atoms) {id : String} :
    .selected id ∈ selection atoms plan.nodes ↔ id ∈ plan.nodes.map (·.id) := by
  have hnot := selected_notMem_facts hatoms id
  simp [selection, hnot, eq_comm]

theorem parity_of_same {ids : List String} {nodes : List PlanNode} (h : ∀ id, id ∈ ids ↔ id ∈ nodes.map (·.id)) :
    ((nodes.map fun node => Text.ofString node.id).filter (!(ids.map Text.ofString).contains ·)) = [] ∧
      ((ids.map Text.ofString).filter (!(nodes.map fun node => Text.ofString node.id).contains ·)) = [] := by
  constructor
  · rw [List.filter_eq_nil_iff]
    intro text htext
    obtain ⟨node, hnode, rfl⟩ := List.mem_map.mp htext
    have hid := (h node.id).mpr (List.mem_map_of_mem hnode)
    simpa using ⟨node.id, hid, rfl⟩
  · rw [List.filter_eq_nil_iff]
    intro text htext
    obtain ⟨id, hid, rfl⟩ := List.mem_map.mp htext
    obtain ⟨node, hnode, heq⟩ := List.mem_map.mp ((h id).mp hid)
    simpa using ⟨node, hnode, congrArg Text.ofString heq⟩

end

/-- **The solver proves the plan**: if it answers as documented, the backend proposes the baseline
under its own classifier when every capability of the plan is implemented, and otherwise reports
that the output is malformed, since an answer without sets has no list of them. -/
theorem clingo_proves_plan {φ : Type} (library : Parsers.ReaderLibrary φ) (p : Planner) (manifest : Manifest)
    (sha256 : Text → String) (solver : Solver) (request : FetchRequest) (hbudget : request.budget.Valid)
    (baseline : Plan) (hplan : p.plan request hbudget = .ok baseline.toFetchPlan)
    (hcommand : solver.command.isSome = true) (hrules : solver.rules = .ok (Text.ofString plannerRules))
    (hdocumented : ∀ atoms, facts p.registry manifest.version request baseline.nodes = .ok atoms →
      Documented library solver (programText (Text.ofString plannerRules) atoms))
    (hmanifest : PlainText (Text.ofString manifest.version))
    (hversion : ∃ version, solver.version = .ok version) (hdigest : ∃ digest, manifest.sha256 = .ok digest) :
    ((∀ node ∈ baseline.nodes, ∀ entry, p.registry.get node.capabilityId = some entry →
        entry.implementationAvailable = true) →
      ∃ proposal, (clingoPlanner library p.registry manifest sha256 solver).propose request baseline = .ok proposal ∧
        proposal.plan = {baseline with classifier := "clingo-asp-v1"}) ∧
    ((∃ node ∈ baseline.nodes, ∃ entry, p.registry.get node.capabilityId = some entry ∧
        entry.implementationAvailable = false) →
      (clingoPlanner library p.registry manifest sha256 solver).propose request baseline = .error .malformed) := by
  obtain ⟨hfacts, hprovable⟩ := plan_provable hplan
  obtain ⟨atoms, hatoms⟩ := hfacts manifest.version
  have hstrings := plan_strings hplan hmanifest hatoms
  obtain ⟨result, sets, hrun, hcode, hnodup, hsets, hnone, hprints⟩ :=
    hdocumented atoms hatoms _ _ (programText_eq hstrings) (denotes_programText hstrings)
  obtain ⟨version, hversion⟩ := hversion
  obtain ⟨digest, hdigest⟩ := hdigest
  have hcode' : [0, 10, 20, 30].contains result.returncode = true := by
    simp only [List.contains_cons, List.contains_nil, Bool.or_eq_true] at hcode ⊢
    exact .inr hcode
  have hanswers := answers_of_plan hatoms hnodup hsets hnone
  constructor
  · intro havailable
    obtain ⟨-, rfl⟩ | ⟨hnot, -⟩ := hanswers
    · have hslug : ∀ id, .selected id ∈ selection atoms baseline.nodes → Slug id := by
        intro id hid
        obtain ⟨node, hnode, rfl⟩ := List.mem_map.mp ((selected_selection hatoms).mp hid)
        exact plan_slugs hplan node hnode
      obtain ⟨ids, hselected, hids⟩ := selectedNodes_one hprints hslug
      obtain ⟨hmissing, hextra⟩ := parity_of_same fun id => (hids id).trans (selected_selection hatoms)
      have hparity : (((baseline.nodes.map fun node => Text.ofString node.id).filter
          (!(ids.map Text.ofString).contains ·)).isEmpty && ((ids.map Text.ofString).filter
          (!(baseline.nodes.map fun node => Text.ofString node.id).contains ·)).isEmpty) = true := by
        rw [hmissing, hextra]
        rfl
      refine ⟨clingoProposal library.floats manifest sha256 baseline (Text.ofString plannerRules)
        (programText (Text.ofString plannerRules) atoms) (ids.map Text.ofString) version digest, ?_, rfl⟩
      refine bind_eq_ok.mpr ⟨(), require_eq_ok.mpr hcommand, bind_eq_ok.mpr ⟨_, hrules, ?_⟩⟩
      refine bind_eq_ok.mpr ⟨atoms, hatoms, bind_eq_ok.mpr ⟨result, hrun, ?_⟩⟩
      refine bind_eq_ok.mpr ⟨(), require_eq_ok.mpr hcode', bind_eq_ok.mpr ⟨_, hselected, ?_⟩⟩
      refine bind_eq_ok.mpr ⟨(), require_eq_ok.mpr hparity, bind_eq_ok.mpr ⟨version, hversion, ?_⟩⟩
      exact bind_eq_ok.mpr ⟨digest, hdigest, rfl⟩
    · exact absurd (hprovable.mpr havailable) hnot
  · intro hmissing
    obtain ⟨node, hnode, entry, hentry, hmissing⟩ := hmissing
    obtain ⟨hyes, -⟩ | ⟨-, rfl⟩ := hanswers
    · exact absurd ((hprovable.mp hyes node hnode entry hentry).symm.trans hmissing) Bool.true_eq_false_eq_False
    · simp only [clingoPlanner, hcommand, hrules, hatoms, hrun, hcode', selectedNodes_none hprints, require, if_true, bind,
        Except.bind]

/-! ### A plan of three nodes -/

/-- As much of the manifest as a request for headers reads. -/
def headPlanner : Planner where
  registry := {entries := [
    {id := "url_validation", kind := .policy}, {id := "url_normalisation", kind := .operation},
    {id := "http_head", kind := .operation}]}
  codecs := asciiCodecs
  sanitizeUrl target _ := target

def headRequest : FetchRequest where
  target := "https://example.com/"
  outputRequirements := ["http_head"]

def headPlan : Plan where
  request := headRequest
  nodes := [
    {id := "normalize", capabilityId := "url_normalisation", adapter := "core"},
    {id := "policy", capabilityId := "url_validation", adapter := "core", dependencies := ["normalize"]
     reservedBudget := {("deadline_seconds", 2)}},
    {id := "http", capabilityId := "http_head", adapter := "http", dependencies := ["policy"], retry := {maximum := 2}
     reservedBudget := {("bytes", 10000000)}}]

/-- What a solver prints that selects every node. -/
def headWitness : List (Text × JsonValue Unit) :=
  [(Text.ofString "Value", .array (["normalize", "policy", "http"].map fun id => .string (Atom.selected id).text))]

def headCall : List (Text × JsonValue Unit) := [(Text.ofString "Witnesses", .array [.object headWitness])]

def headDocument : List (Text × JsonValue Unit) := [(Text.ofString "Call", .array [.object headCall])]

def headOutput : List UInt8 := (Parsers.encodeDocument Parsers.plainLibrary.floats (.object headDocument)).getD []

def headSolver : Solver where
  command := some ["clingo"]
  rules := .ok (Text.ofString plannerRules)
  run _ := .ok {returncode := 10, stdout := headOutput}
  version := .ok none

/-- What is written for a document with sorted keys that is shallow enough is read again. -/
theorem loadOutput_written {fields : List (Text × JsonValue Unit)} (hne : fields ≠ [])
    (hwritten : (Parsers.encodeDocument Parsers.plainLibrary.floats (.object fields)).isSome = true)
    (hfit : (JsonValue.object fields).fitsIn 1000 = true)
    (hunique : JsonValue.every JsonValue.uniqueHere (.object fields) = true)
    (hsorted : JsonText.sortKeys (.object fields) = .object fields) :
    loadOutput Parsers.plainLibrary ((Parsers.encodeDocument Parsers.plainLibrary.floats (.object fields)).getD []) =
      .ok (.object fields) := by
  obtain ⟨bytes, hbytes⟩ := Option.isSome_iff_exists.mp hwritten
  obtain ⟨text, htext, hencode⟩ := Option.bind_eq_some_iff.mp hbytes
  have hloads : JsonText.loads Parsers.plainLibrary.floats (Parsers.readerHooks Parsers.plainLibrary.constant) 1000 text =
      some (JsonText.sortKeys (.object fields)) :=
    JsonText.loads_dumps Parsers.readerHooks_object hfit hunique htext
  rw [hsorted, ← JsonText.toOption_loadsOrFault, toOption_eq_some] at hloads
  have hdecode : Parsers.decodeJson Parsers.plainLibrary.otherEncodings bytes = some text :=
    Parsers.decodeJson_encode hne htext hencode
  rw [loadOutput, hbytes, Option.getD_some, hdecode]
  show Except.mapError _ (JsonText.loadsOrFault _ _ _ text) = _
  rw [mapError_eq_ok]
  exact hloads

theorem headOutput_read : loadOutput Parsers.plainLibrary headOutput = .ok (.object headDocument) :=
  loadOutput_written (List.cons_ne_nil _ _) (by decide +kernel) (JsonValue.fitsIn_mono (by decide : 8 ≤ 1000) (by decide +kernel))
    (by decide +kernel) rfl

theorem clingo_proves_head_plan : ∃ proposal,
    (clingoPlanner Parsers.plainLibrary headPlanner.registry {version := "1.0", sha256 := .ok ""} (fun _ => "") headSolver).propose
      headRequest headPlan = .ok proposal ∧ proposal.plan = {headPlan with classifier := "clingo-asp-v1"} := by
  have hplan : headPlanner.plan headRequest (by decide) = .ok headPlan.toFetchPlan := by rfl
  have himplemented : ∀ node ∈ headPlan.nodes, ∀ entry, headPlanner.registry.get node.capabilityId = some entry →
      entry.implementationAvailable = true := by
    intro node _ entry hentry
    have hall : ∀ entry ∈ headPlanner.registry.entries, entry.implementationAvailable = true := by decide
    obtain ⟨_, -, hfound⟩ := Option.bind_eq_some_iff.mp hentry
    exact hall entry (List.mem_of_find?_eq_some hfound)
  refine (clingo_proves_plan Parsers.plainLibrary headPlanner {version := "1.0", sha256 := .ok ""} (fun _ => "") headSolver
    headRequest (by decide) headPlan hplan rfl rfl ?_ ?_ ⟨none, rfl⟩ ⟨"", rfl⟩).1 himplemented
  · intro atoms hatoms chars statements hchars hstatements
    have hversion : PlainText (Text.ofString "1.0") := plainText_of_chars (by decide)
    have hstrings := plan_strings hplan hversion hatoms
    have hsame : chars = plannerText atoms := CodePoint.ofChar_inj.list_map (hchars.symm.trans (programText_eq hstrings))
    rw [hsame, denotes_programText hstrings] at hstatements
    cases hstatements
    have hset : IsAnswerSet (ground (statementsOf atoms)) (Atom.ground '' selection atoms headPlan.nodes) :=
      (isAnswerSet_statementsOf hatoms).mpr ⟨rfl, (plan_provable hplan).2.mpr himplemented⟩
    refine ⟨{returncode := 10, stdout := headOutput}, [Atom.ground '' selection atoms headPlan.nodes], rfl, by decide,
      List.nodup_singleton _, List.forall_mem_singleton.mpr hset, fun h => absurd h (List.cons_ne_nil _ _), ?_⟩
    refine ⟨headDocument, headCall, headOutput_read, rfl, fun h => absurd h (List.cons_ne_nil _ _), fun _ => ?_⟩
    refine ⟨[.object headWitness], rfl, .cons ⟨headWitness, headPlan.nodes.map fun node => (Atom.selected node.id).ground, rfl, ?_,
      fun a => ?_⟩ .nil⟩
    · have htexts : ∀ id ∈ headPlan.nodes.map (·.id),
          (Atom.selected id).text = (Atom.selected id).ground.written.map CodePoint.ofChar := by
        intro id hid
        refine text_ground fun s hs => ?_
        obtain ⟨node, hnode, rfl⟩ := List.mem_map.mp hid
        rw [List.mem_singleton.mp hs]
        exact plainText_of_slug (plan_slugs hplan node hnode)
      have hvalue : JsonValue.get? headWitness "Value" =
          some (.array ((headPlan.nodes.map (·.id)).map fun id => .string (Atom.selected id).text)) := rfl
      rw [hvalue, List.map_map, List.map_map]
      exact congrArg (some ∘ JsonValue.array) (List.map_congr_left fun node hnode =>
        congrArg JsonValue.string (htexts _ (List.mem_map_of_mem hnode)))
    · simp only [mem_shown_iff, selected_selection hatoms, List.mem_map]
      constructor
      · rintro ⟨node, hnode, rfl⟩
        exact ⟨node.id, ⟨node, hnode, rfl⟩, rfl⟩
      · rintro ⟨_, ⟨node, hnode, rfl⟩, rfl⟩
        exact ⟨node, hnode, rfl⟩
  · exact plainText_of_chars (by decide)

end Fetech.Logic
