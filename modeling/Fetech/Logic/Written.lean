import Fetech.Lib.LogicPrograms
import Fetech.Logic.Rules

/-! What the text means that the solver is given (`denotes_programText`).

The backend writes its facts below the rules of `planner.lp`. Read as a logic program, this text is
the rules as they are written there and the facts it was written from, if the strings of the facts
stand for themselves between quotes; its ground program is the one of `Logic.Rules`, under the names
that are written. -/
namespace Fetech.Logic
open Planning Lib Lib.Except Lib.AnswerSets Lib.LogicPrograms

/-! ### The rules -/

/-- `planner.lp` -/
def plannerRules : String :=
  "% Fetech bounded planning constraints. Python generates all facts.

selected(Node) :- required(Node).
selected(Dependency) :- selected(Node), dependency(Node, Dependency).

:- selected(Node), unavailable(Node).
:- selected(Node), denied(Node).
:- selected(Node), not node(Node).
:- required(Node), not selected(Node).
\n#show selected/1.
"

/-- A predicate of variables. -/
def ofVariables (predicate : String) (names : List String) : Literal where
  predicate := predicate.toList
  arguments := names.map fun name => .variable name.toList

/-- What the rules say. -/
def plannerStatements : List Statement := [
  .clause ⟨some (ofVariables "selected" ["Node"]), [ofVariables "required" ["Node"]], []⟩,
  .clause ⟨some (ofVariables "selected" ["Dependency"]),
    [ofVariables "selected" ["Node"], ofVariables "dependency" ["Node", "Dependency"]], []⟩,
  .clause ⟨none, [ofVariables "selected" ["Node"], ofVariables "unavailable" ["Node"]], []⟩,
  .clause ⟨none, [ofVariables "selected" ["Node"], ofVariables "denied" ["Node"]], []⟩,
  .clause ⟨none, [ofVariables "selected" ["Node"]], [ofVariables "node" ["Node"]]⟩,
  .clause ⟨none, [ofVariables "required" ["Node"]], [ofVariables "selected" ["Node"]]⟩,
  .shown "selected".toList 1]

set_option maxRecDepth 4000 in
theorem read_plannerRules : readProgram plannerRules.toList = some plannerStatements := by
  -- The characters of a literal are cheap to have by this lemma, and dear to compute.
  have hchars : plannerRules.toList = _ := String.toList_ofList
  rw [hchars]
  decide +kernel

/-! ### Names, written and read -/

/-- What is written between quotes as it stands. -/
def PlainText (s : Text) : Prop :=
  ∀ c ∈ s, 0x20 ≤ c.val ∧ c.val ≤ 0x7e ∧ c ≠ JsonText.quote ∧ c ≠ JsonText.backslash

theorem letters_cases :
    ∀ pair ∈ JsonText.letters, pair.1.val < 0x20 ∨ pair.1 = JsonText.quote ∨ pair.1 = JsonText.backslash := by
  simp [JsonText.letters, JsonText.quote, JsonText.backslash]

theorem writeString_plain {s : Text} (h : PlainText s) :
    JsonText.writeString true s = JsonText.quote :: s ++ [JsonText.quote] := by
  have hescape : ∀ c ∈ s, JsonText.escape true c = [c] := by
    intro c hc
    obtain ⟨hlow, hhigh, hquote, hbackslash⟩ := h c hc
    have hletter : JsonText.letters.lookup c = none := by
      rw [List.lookup_eq_none_iff]
      intro pair hpair
      rw [bne_iff_ne]
      intro heq
      rw [heq] at hlow hquote hbackslash
      obtain hcontrol | heq | heq := letters_cases pair hpair
      · omega
      · exact hquote heq
      · exact hbackslash heq
    have hkept : JsonText.mustEscape true c = false := by
      simp only [JsonText.mustEscape, Bool.true_and, Bool.or_eq_false_iff, decide_eq_false_iff_not]
      omega
    rw [JsonText.escape, hletter, hkept]
    rfl
  have hflat : s.flatMap (JsonText.escape true) = s := by
    rw [List.flatMap_congr hescape, List.flatMap_singleton']
  rw [JsonText.writeString, hflat]

theorem plainText_of_chars {s : String}
    (h : s.toList.all fun ch => decide (0x20 ≤ ch.toNat ∧ ch.toNat ≤ 0x7e ∧ ch.toNat ≠ 0x22 ∧ ch.toNat ≠ 0x5c)) :
    PlainText (Text.ofString s) := by
  intro c hc
  obtain ⟨ch, hch, rfl⟩ := List.mem_map.mp hc
  obtain ⟨hlow, hhigh, hquote, hbackslash⟩ := of_decide_eq_true (List.all_eq_true.mp h ch hch)
  have hval : (CodePoint.ofChar ch).val = ch.toNat := Nat.mod_eq_of_lt (by omega)
  refine ⟨hval ▸ hlow, hval ▸ hhigh, fun heq => hquote ?_, fun heq => hbackslash ?_⟩
  · exact hval.symm.trans (congrArg Fin.val heq)
  · exact hval.symm.trans (congrArg Fin.val heq)

/-! ### Atoms, as they are written -/

/-- The strings of an atom. -/
def Atom.strings : Atom → List String
  | manifestVersion version => [version]
  | node id | required id | unavailable id | denied id | selected id => [id]
  | dependency id on => [id, on]

def Atom.predicate : Atom → String
  | manifestVersion _ => "manifest_version"
  | node _ => "node"
  | required _ => "required"
  | unavailable _ => "unavailable"
  | denied _ => "denied"
  | dependency _ _ => "dependency"
  | selected _ => "selected"

theorem predicate_mem (a : Atom) : a.predicate ∈
    ["manifest_version", "node", "required", "unavailable", "denied", "dependency", "selected"] := by
  cases a <;> simp [Atom.predicate]

/-- An atom under the name it is written with. -/
def Atom.ground (a : Atom) : GroundAtom where
  predicate := a.predicate.toList
  arguments := a.strings.map String.toList

theorem ground_inj : Function.Injective Atom.ground := by
  intro a b h
  simp only [Atom.ground, GroundAtom.mk.injEq, String.toList_inj] at h
  obtain ⟨hpredicate, hstrings⟩ := h
  have hsame := (List.map_injective_iff.mpr fun _ _ => String.toList_inj.mp) hstrings
  cases a <;> cases b <;> simp_all [Atom.predicate, Atom.strings]

theorem ne_of_plain {s : String} (h : PlainText (Text.ofString s)) : ∀ ch ∈ s.toList, ch ≠ '"' ∧ ch ≠ '\\' ∧ ch ≠ '\n' := by
  intro ch hch
  obtain ⟨hlow, -, hquote, hbackslash⟩ := h _ (List.mem_map_of_mem hch)
  refine ⟨?_, ?_, ?_⟩
  · rintro rfl
    exact hquote (by decide)
  · rintro rfl
    exact hbackslash (by decide)
  · rintro rfl
    exact absurd hlow (by decide)

theorem ground_plain {a : Atom} (h : ∀ s ∈ a.strings, PlainText (Text.ofString s)) : a.ground.Plain where
  named := by
    have hall : ∀ predicate ∈ ["manifest_version", "node", "required", "unavailable", "denied", "dependency", "selected"],
        predicate.toList ≠ [] := by decide
    exact hall _ (predicate_mem a)
  word := by
    have hall : ∀ predicate ∈ ["manifest_version", "node", "required", "unavailable", "denied", "dependency", "selected"],
        predicate.toList.all isWordChar = true := by decide
    exact List.all_eq_true.mp (hall _ (predicate_mem a))
  some_argument := by
    cases a <;> exact List.cons_ne_nil _ _
  arguments := List.forall_mem_map.mpr fun s hs => ne_of_plain (h s hs)

theorem aspString_plain {s : String} (h : PlainText (Text.ofString s)) :
    aspString s = ('"' :: s.toList ++ ['"']).map CodePoint.ofChar := by
  rw [aspString, writeString_plain h]
  simp only [List.cons_append, List.map_cons, List.map_append, List.map_nil]
  rfl

/-- A plain atom is written as it is read. -/
theorem text_ground {a : Atom} (h : ∀ s ∈ a.strings, PlainText (Text.ofString s)) :
    a.text = a.ground.written.map CodePoint.ofChar := by
  have hstring : ∀ s ∈ a.strings, aspString s = ('"' :: s.toList ++ ['"']).map CodePoint.ofChar :=
    fun s hs => aspString_plain (h s hs)
  cases a with
  | dependency id on =>
    have hid := hstring id List.mem_cons_self
    have hon := hstring on (List.mem_cons_of_mem _ List.mem_cons_self)
    simp [Atom.text, Atom.ground, Atom.predicate, Atom.strings, GroundAtom.written, writtenArguments, Text.ofString, hid, hon]
  | _ =>
    have hid := hstring _ List.mem_cons_self
    simp [Atom.text, Atom.ground, Atom.predicate, Atom.strings, GroundAtom.written, writtenArguments, Text.ofString, hid]

/-! ### What the solver is given -/

theorem ground_fact (a : GroundAtom) (assigned : List Char → List Char) :
    Clause.instantiate assigned ⟨some ⟨a.predicate, a.arguments.map .constant⟩, [], []⟩ = .fact a := by
  have hvalues : a.arguments.map (Term.value assigned ∘ Term.constant) = a.arguments := List.map_id _
  simp only [Clause.instantiate, Literal.instantiate, Option.map_some, List.map_map, hvalues, List.map_nil]
  rfl

/-- The text of the rules with facts below them. -/
def plannerText (atoms : List Atom) : List Char :=
  plannerRules.toList ++ '\n' :: ['\n'].intercalate ((atoms.map Atom.ground).map fun a => a.written ++ ['.'])

def statementsOf (atoms : List Atom) : List Statement := plannerStatements ++ (atoms.map Atom.ground).map GroundAtom.fact

variable {atoms : List Atom}

theorem map_intercalate {α β : Type} (f : α → β) (separator : List α) (lines : List (List α)) :
    (separator.intercalate lines).map f = (separator.map f).intercalate (lines.map (List.map f)) := by
  induction lines with
  | nil => rfl
  | cons line rest ih =>
    cases rest with
    | nil => simp
    | cons other rest =>
      rw [List.intercalate_cons_cons, List.map_append, List.map_append, ih]
      exact List.intercalate_cons_cons.symm

theorem programText_eq (h : ∀ a ∈ atoms, ∀ s ∈ a.strings, PlainText (Text.ofString s)) :
    programText (Text.ofString plannerRules) atoms = (plannerText atoms).map CodePoint.ofChar := by
  have hlines : (atoms.map fun a => a.text ++ Text.ofString ".") =
      ((atoms.map Atom.ground).map fun a => a.written ++ ['.']).map (List.map CodePoint.ofChar) := by
    rw [List.map_map, List.map_map]
    refine List.map_congr_left fun a ha => ?_
    rw [text_ground (h a ha)]
    simp [Text.ofString]
  rw [programText, plannerText, factsText, hlines, List.map_append, List.map_cons, map_intercalate]
  rfl

/-- **The text denotes its facts below the rules**, if the strings of the facts stand for themselves. -/
theorem denotes_programText (h : ∀ a ∈ atoms, ∀ s ∈ a.strings, PlainText (Text.ofString s)) :
    readProgram (plannerText atoms) = some (statementsOf atoms) :=
  readProgram_append read_plannerRules (readProgram_facts (List.forall_mem_map.mpr fun a ha => ground_plain (h a ha)))

/-- Only the nodes that are selected are shown. -/
theorem shown_statementsOf {a : GroundAtom} :
    isShown (statementsOf atoms) a ↔ a.predicate = "selected".toList ∧ a.arguments.length = 1 := by
  have hmem : ∀ predicate arity, .shown predicate arity ∈ statementsOf atoms ↔ predicate = "selected".toList ∧ arity = 1 := by
    intro predicate arity
    have hfact : .shown predicate arity ∉ (atoms.map Atom.ground).map GroundAtom.fact := by
      intro hfact
      obtain ⟨a, -, heq⟩ := List.mem_map.mp hfact
      cases heq
    simp only [statementsOf, List.mem_append, hfact, or_false, plannerStatements, List.mem_cons, List.not_mem_nil, reduceCtorEq,
      false_or, Statement.shown.injEq]
  rw [isShown, hmem]
  refine or_iff_right fun hnone => ?_
  exact hnone "selected".toList 1 ((hmem _ _).mpr ⟨rfl, rfl⟩)

/-- The value of a variable, as a node's name. -/
theorem instantiate_ofVariables (assigned : List Char → List Char) (predicate : String) (names : List String) :
    (ofVariables predicate names).instantiate assigned =
      ⟨predicate.toList, names.map fun name => assigned name.toList⟩ := by
  rw [Literal.instantiate, ofVariables, List.map_map]
  rfl

/-- What the variables of the rules stand for, each rule one of the planner's. -/
theorem exists_rule {clause : Clause} (h : .clause clause ∈ plannerStatements) (assigned : List Char → List Char) :
    ∃ rule, PlannerRule rule ∧ clause.instantiate assigned = rule.map Atom.ground := by
  have hnode : assigned "Node".toList = (String.ofList (assigned "Node".toList)).toList := String.toList_ofList.symm
  have hdependency : assigned "Dependency".toList = (String.ofList (assigned "Dependency".toList)).toList :=
    String.toList_ofList.symm
  generalize String.ofList (assigned "Node".toList) = node at hnode
  generalize String.ofList (assigned "Dependency".toList) = dependency at hdependency
  simp only [plannerStatements, List.mem_cons, List.not_mem_nil, or_false, Statement.clause.injEq, reduceCtorEq] at h
  obtain rfl | rfl | rfl | rfl | rfl | rfl := h <;>
    simp only [Clause.instantiate, Option.map_some, Option.map_none, List.map_cons, List.map_nil,
      instantiate_ofVariables, hnode, hdependency]
  · exact ⟨_, .required node, rfl⟩
  · exact ⟨_, .depended node dependency, rfl⟩
  · exact ⟨_, .unavailable node, rfl⟩
  · exact ⟨_, .denied node, rfl⟩
  · exact ⟨_, .undeclared node, rfl⟩
  · exact ⟨_, .missed node, rfl⟩

theorem exists_assigned (node dependency : String) : ∃ assigned : List Char → List Char,
    assigned "Node".toList = node.toList ∧ assigned "Dependency".toList = dependency.toList :=
  ⟨fun name => if name = "Node".toList then node.toList else dependency.toList, if_pos rfl, if_neg (by decide)⟩

/-- Each of the planner's rules is one of those that are written. -/
theorem exists_clause {rule : Rule Atom} (h : PlannerRule rule) :
    ∃ clause, .clause clause ∈ plannerStatements ∧ ∃ assigned, rule.map Atom.ground = clause.instantiate assigned := by
  cases h with
  | required node =>
    obtain ⟨assigned, hnode, -⟩ := exists_assigned node node
    refine ⟨_, .head _, assigned, ?_⟩
    simp only [Clause.instantiate, Option.map_some, List.map_cons, List.map_nil, instantiate_ofVariables, hnode]
    rfl
  | depended node dependency =>
    obtain ⟨assigned, hnode, hdependency⟩ := exists_assigned node dependency
    refine ⟨_, .tail _ (.head _), assigned, ?_⟩
    simp only [Clause.instantiate, Option.map_some, List.map_cons, List.map_nil, instantiate_ofVariables, hnode,
      hdependency]
    rfl
  | unavailable node =>
    obtain ⟨assigned, hnode, -⟩ := exists_assigned node node
    refine ⟨_, .tail _ (.tail _ (.head _)), assigned, ?_⟩
    simp only [Clause.instantiate, Option.map_none, List.map_cons, List.map_nil, instantiate_ofVariables, hnode]
    rfl
  | denied node =>
    obtain ⟨assigned, hnode, -⟩ := exists_assigned node node
    refine ⟨_, .tail _ (.tail _ (.tail _ (.head _))), assigned, ?_⟩
    simp only [Clause.instantiate, Option.map_none, List.map_cons, List.map_nil, instantiate_ofVariables, hnode]
    rfl
  | undeclared node =>
    obtain ⟨assigned, hnode, -⟩ := exists_assigned node node
    refine ⟨_, .tail _ (.tail _ (.tail _ (.tail _ (.head _)))), assigned, ?_⟩
    simp only [Clause.instantiate, Option.map_none, List.map_cons, List.map_nil, instantiate_ofVariables, hnode]
    rfl
  | missed node =>
    obtain ⟨assigned, hnode, -⟩ := exists_assigned node node
    refine ⟨_, .tail _ (.tail _ (.tail _ (.tail _ (.tail _ (.head _))))), assigned, ?_⟩
    simp only [Clause.instantiate, Option.map_none, List.map_cons, List.map_nil, instantiate_ofVariables, hnode]
    rfl

/-- The ground program is that of the rules, under the names that are written. -/
theorem ground_statementsOf (atoms : List Atom) : ground (statementsOf atoms) = (program atoms).map Atom.ground := by
  ext r
  constructor
  · intro h
    obtain ⟨clause, hclause, assigned, rfl⟩ := h
    obtain hrule | hfact := List.mem_append.mp hclause
    · obtain ⟨rule, hplanner, hsame⟩ := exists_rule hrule assigned
      exact ⟨rule, .inl hplanner, hsame.symm⟩
    · rw [List.map_map] at hfact
      obtain ⟨a, ha, heq⟩ := List.mem_map.mp hfact
      cases heq
      exact ⟨.fact a, .inr ⟨a, ha, rfl⟩, (ground_fact a.ground assigned).symm⟩
  · intro h
    obtain ⟨rule, hrule | ⟨a, ha, rfl⟩, rfl⟩ := h
    · obtain ⟨clause, hclause, assigned, hsame⟩ := exists_clause hrule
      exact ⟨clause, List.mem_append_left _ hclause, assigned, hsame⟩
    · refine ⟨_, List.mem_append_right _ (List.mem_map_of_mem (List.mem_map_of_mem ha)), id, ?_⟩
      exact (ground_fact a.ground id).symm

end Fetech.Logic
