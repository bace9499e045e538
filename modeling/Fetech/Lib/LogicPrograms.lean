import Fetech.Lib.AnswerSets
import Mathlib.Data.List.Basic

/-! Logic programs as they are written, and what they mean.

A program is read line by line, in the part of the input language of answer set solvers that has
rules and constraints over strings, facts, comments and `#show`. What a text means is the ground
program of all instances of its clauses (`ground`), and which atoms are shown. Atoms under other
names have the same answer sets (`isAnswerSet_map`). -/
namespace Lib.AnswerSets
variable {α β : Type*}

/-! ### Other names -/

def Rule.map (f : α → β) (r : Rule α) : Rule β where
  head := r.head.map f
  positive := r.positive.map f
  negative := r.negative.map f

/-- A program with its atoms renamed. -/
def Program.map (f : α → β) (P : Program α) : Program β := Rule.map f '' P

section
variable {f : α → β} {P : Program α}

theorem derived_map (hf : Function.Injective f) {b : β} :
    Derived (P.map f) b ↔ ∃ a, Derived P a ∧ f a = b := by
  constructor
  · intro h
    induction h with
    | rule hr hhead _ ih =>
      obtain ⟨r, hr, rfl⟩ := hr
      obtain ⟨a, ha, rfl⟩ := Option.map_eq_some_iff.mp hhead
      refine ⟨a, .rule hr ha fun c hc => ?_, rfl⟩
      obtain ⟨c', hc', heq⟩ := ih (f c) (List.mem_map_of_mem hc)
      exact hf heq ▸ hc'
  · intro h
    obtain ⟨a, ha, rfl⟩ := h
    induction ha with
    | rule hr hhead _ ih =>
      refine .rule ⟨_, hr, rfl⟩ (congrArg (Option.map f) hhead) fun b hb => ?_
      obtain ⟨c, hc, rfl⟩ := List.mem_map.mp hb
      exact ih c hc

/-- Renaming goes through the negations, decided in a set of atoms under their old names. -/
theorem reduct_map (M : Set β) : reduct (P.map f) M = Program.map f (reduct P (Set.preimage f M)) := by
  ext r
  constructor
  · intro h
    obtain ⟨_, ⟨s, hs, rfl⟩, hnegative, rfl⟩ := h
    exact ⟨{s with negative := []}, ⟨s, hs, fun a ha => hnegative (f a) (List.mem_map_of_mem ha), rfl⟩, rfl⟩
  · intro h
    obtain ⟨_, ⟨s, hs, hnegative, rfl⟩, rfl⟩ := h
    exact ⟨s.map f, ⟨s, hs, rfl⟩, List.forall_mem_map.mpr hnegative, rfl⟩

theorem fires_map {r : Rule α} {M : Set β} : (r.map f).Fires M ↔ r.Fires (Set.preimage f M) := by
  simp only [Rule.Fires, Rule.map, List.forall_mem_map, Set.mem_preimage]

/-- **Answer sets under other names** are the answer sets, renamed. -/
theorem isAnswerSet_map (hf : Function.Injective f) {M : Set β} :
    IsAnswerSet (P.map f) M ↔ ∃ N, IsAnswerSet P N ∧ M = f '' N := by
  have hderived : ∀ N : Set α, {b | Derived (Program.map f (reduct P N)) b} = f '' {a | Derived (reduct P N) a} := by
    intro N
    ext b
    exact derived_map hf
  constructor
  · intro h
    have hM : M = f '' {a | Derived (reduct P (Set.preimage f M)) a} := by
      rw [← hderived, ← reduct_map]
      exact h.founded
    have hN : Set.preimage f M = {a | Derived (reduct P (Set.preimage f M)) a} := by
      conv_lhs => rw [hM]
      exact Set.preimage_image_eq _ hf
    refine ⟨Set.preimage f M, ⟨hN, fun r hr hhead hfires => ?_⟩, ?_⟩
    · exact h.consistent (r.map f) ⟨r, hr, rfl⟩ (by rw [Rule.map, hhead]; rfl) (fires_map.mpr hfires)
    · rw [hN]
      exact hM
  · intro h
    obtain ⟨N, hN, rfl⟩ := h
    have hpreimage : Set.preimage f (f '' N) = N := Set.preimage_image_eq N hf
    constructor
    · rw [reduct_map, hpreimage, hderived, ← hN.founded]
    · intro r hr hhead hfires
      obtain ⟨s, hs, rfl⟩ := hr
      rw [fires_map, hpreimage] at hfires
      exact hN.consistent s hs (Option.map_eq_none_iff.mp hhead) hfires

end

end Lib.AnswerSets

namespace Lib.LogicPrograms
open AnswerSets

/-! ### What is written -/

inductive Term where
  | variable (name : List Char)
  | constant (value : List Char)
  deriving DecidableEq

/-- A predicate of terms. -/
structure Literal where
  predicate : List Char
  arguments : List Term
  deriving DecidableEq

structure Clause where
  head : Option Literal
  positive : List Literal
  negative : List Literal
  deriving DecidableEq

inductive Statement where
  | clause (clause : Clause)
  /-- `#show predicate/arity.` -/
  | shown (predicate : List Char) (arity : Nat)
  deriving DecidableEq

/-! ### Words -/

inductive Token where
  | word (chars : List Char)
  | quoted (chars : List Char)
  | mark (ch : Char)
  deriving DecidableEq

def isWordChar (ch : Char) : Bool := ch.isAlphanum || ch == '_'

/-- Where a line is being read: between words, in one or in a string. -/
inductive Reading where
  | between
  | word (chars : List Char)
  | quoted (chars : List Char)

/-- A character that stands before, between or after words. A percent sign makes the rest of the line
a comment. -/
def separator (ch : Char) (rest : Option (List Token)) : Option (List Token) :=
  if ch = '%' then some []
  else if ch = ' ' then rest
  else rest.map (.mark ch :: ·)

/-- The words, strings and marks of a line; an escape in a string is not read. -/
def tokens : Reading → List Char → Option (List Token)
  | .between, [] => some []
  | .word chars, [] => some [.word chars]
  | .quoted _, [] => none
  | .between, ch :: rest =>
    if isWordChar ch then tokens (.word [ch]) rest
    else if ch = '"' then tokens (.quoted []) rest
    else separator ch (tokens .between rest)
  | .word chars, ch :: rest =>
    if isWordChar ch then tokens (.word (chars ++ [ch])) rest
    else (if ch = '"' then tokens (.quoted []) rest else separator ch (tokens .between rest)).map (.word chars :: ·)
  | .quoted chars, ch :: rest =>
    if ch = '"' then (tokens .between rest).map (.quoted chars :: ·)
    else if ch = '\\' then none
    else tokens (.quoted (chars ++ [ch])) rest

/-! ### Clauses -/

/-- A word that starts with a capital letter is a variable; of the others only strings are read. -/
def readTerm : Token → Option Term
  | .word (ch :: rest) => if ch.isUpper then some (.variable (ch :: rest)) else none
  | .quoted chars => some (.constant chars)
  | _ => none

/-- Terms between commas, up to the closing parenthesis. -/
def readTerms : List Token → Option (List Term × List Token)
  | term :: .mark ch :: rest =>
    if ch = ')' then (readTerm term).map fun t => ([t], rest)
    else if ch = ',' then do
      let t ← readTerm term
      let (terms, rest) ← readTerms rest
      return (t :: terms, rest)
    else none
  | _ => none

def readLiteral : List Token → Option (Literal × List Token)
  | .word predicate :: .mark '(' :: rest => do
    let (arguments, rest) ← readTerms rest
    return (⟨predicate, arguments⟩, rest)
  | _ => none

/-- Literals between commas, up to the full stop, in as many turns at most. -/
def readBody : Nat → Clause → List Token → Option Clause
  | 0, _, _ => none
  | turns + 1, clause, words => do
    let negated := words.head? = some (.word "not".toList)
    let (literal, rest) ← readLiteral (if negated then words.tail else words)
    let clause := if negated then {clause with negative := clause.negative ++ [literal]}
      else {clause with positive := clause.positive ++ [literal]}
    match rest with
    | [.mark '.'] => some clause
    | .mark ',' :: rest => readBody turns clause rest
    | _ => none

/-- A fact, a rule or a constraint. -/
def readClause : List Token → Option Clause
  | .mark ':' :: .mark '-' :: rest => readBody rest.length ⟨none, [], []⟩ rest
  | words => do
    let (head, rest) ← readLiteral words
    match rest with
    | [.mark '.'] => some ⟨some head, [], []⟩
    | .mark ':' :: .mark '-' :: rest => readBody rest.length ⟨some head, [], []⟩ rest
    | _ => none

def readStatement : List Token → Option (List Statement)
  | [] => some []
  | [.mark '#', .word show', .word predicate, .mark '/', .word [digit], .mark '.'] =>
    if show' = "show".toList ∧ digit.isDigit then some [.shown predicate (digit.toNat - '0'.toNat)] else none
  | words => (readClause words).map fun clause => [.clause clause]

/-- The statements of a text, one a line. -/
def readProgram (text : List Char) : Option (List Statement) :=
  ((text.splitOn '\n').mapM fun line => (tokens .between line).bind readStatement).map List.flatten

/-! ### What is meant -/

structure GroundAtom where
  predicate : List Char
  arguments : List (List Char)
  deriving DecidableEq

def Term.value (assigned : List Char → List Char) : Term → List Char
  | .variable name => assigned name
  | .constant value => value

def Literal.instantiate (assigned : List Char → List Char) (literal : Literal) : GroundAtom where
  predicate := literal.predicate
  arguments := literal.arguments.map (Term.value assigned)

def Clause.instantiate (assigned : List Char → List Char) (clause : Clause) : Rule GroundAtom where
  head := clause.head.map (Literal.instantiate assigned)
  positive := clause.positive.map (Literal.instantiate assigned)
  negative := clause.negative.map (Literal.instantiate assigned)

/-- All instances of the clauses. -/
def ground (statements : List Statement) : Program GroundAtom :=
  {r | ∃ clause, .clause clause ∈ statements ∧ ∃ assigned, r = clause.instantiate assigned}

/-- What is shown of an answer set: everything, unless something is said. -/
def isShown (statements : List Statement) (a : GroundAtom) : Prop :=
  (∀ predicate arity, .shown predicate arity ∉ statements) ∨ .shown a.predicate a.arguments.length ∈ statements

/-! ### Facts -/

/-- The arguments of an atom in quotes, between commas, and the closing parenthesis. -/
def writtenArguments : List (List Char) → List Char
  | [] => [')']
  | [value] => '"' :: value ++ ['"', ')']
  | value :: other :: rest => '"' :: value ++ '"' :: ',' :: writtenArguments (other :: rest)

/-- An atom as it is written in a fact, and as solvers print it. -/
def GroundAtom.written (a : GroundAtom) : List Char := a.predicate ++ '(' :: writtenArguments a.arguments

/-- What stands for itself in a fact. -/
structure GroundAtom.Plain (a : GroundAtom) : Prop where
  named : a.predicate ≠ []
  word : ∀ ch ∈ a.predicate, isWordChar ch = true
  some_argument : a.arguments ≠ []
  arguments : ∀ value ∈ a.arguments, ∀ ch ∈ value, ch ≠ '"' ∧ ch ≠ '\\' ∧ ch ≠ '\n'

def GroundAtom.fact (a : GroundAtom) : Statement := .clause ⟨some ⟨a.predicate, a.arguments.map .constant⟩, [], []⟩

theorem tokens_quoted {chars value rest : List Char} (h : ∀ ch ∈ value, ch ≠ '"' ∧ ch ≠ '\\') :
    tokens (.quoted chars) (value ++ '"' :: rest) = (tokens .between rest).map (.quoted (chars ++ value) :: ·) := by
  induction value generalizing chars with
  | nil => rw [List.nil_append, tokens, if_pos rfl, List.append_nil]
  | cons ch value ih =>
    obtain ⟨⟨hquote, hbackslash⟩, hvalue⟩ := List.forall_mem_cons.mp h
    rw [List.cons_append, tokens, if_neg hquote, if_neg hbackslash, ih hvalue, List.append_assoc, List.singleton_append]

/-- A word before a parenthesis. -/
theorem tokens_word {chars word rest : List Char} (h : ∀ ch ∈ word, isWordChar ch = true) :
    tokens (.word chars) (word ++ '(' :: rest) = (tokens .between rest).map fun words => .word (chars ++ word) :: .mark '(' :: words := by
  induction word generalizing chars with
  | nil =>
    rw [List.nil_append, tokens, if_neg (by decide), if_neg (by decide), separator, if_neg (by decide), if_neg (by decide),
      Option.map_map, List.append_nil]
    rfl
  | cons ch word ih =>
    obtain ⟨hch, hword⟩ := List.forall_mem_cons.mp h
    rw [List.cons_append, tokens, if_pos hch, ih hword, List.append_assoc, List.singleton_append]

/-- The arguments of a fact, from its opening parenthesis to its full stop. -/
def argumentTokens : List (List Char) → List Token
  | [] => [.mark ')', .mark '.']
  | [value] => [.quoted value, .mark ')', .mark '.']
  | value :: other :: rest => .quoted value :: .mark ',' :: argumentTokens (other :: rest)

theorem tokens_arguments {values : List (List Char)} (h : ∀ value ∈ values, ∀ ch ∈ value, ch ≠ '"' ∧ ch ≠ '\\') :
    tokens .between (writtenArguments values ++ ['.']) = some (argumentTokens values) := by
  induction values with
  | nil => rfl
  | cons value values ih =>
    obtain ⟨hvalue, hvalues⟩ := List.forall_mem_cons.mp h
    cases values with
    | nil =>
      show tokens .between ('"' :: (value ++ ['"', ')']) ++ ['.']) = _
      rw [List.cons_append, List.append_assoc, tokens, if_neg (by decide), if_pos rfl]
      show tokens (.quoted []) (value ++ '"' :: [')', '.']) = _
      rw [tokens_quoted hvalue]
      rfl
    | cons other rest =>
      show tokens .between ('"' :: (value ++ '"' :: ',' :: writtenArguments (other :: rest)) ++ ['.']) = _
      rw [List.cons_append, List.append_assoc, tokens, if_neg (by decide), if_pos rfl]
      show tokens (.quoted []) (value ++ '"' :: (',' :: (writtenArguments (other :: rest) ++ ['.']))) = _
      rw [tokens_quoted hvalue, tokens, if_neg (by decide), if_neg (by decide), separator, if_neg (by decide), if_neg (by decide),
        ih hvalues]
      rfl

theorem readTerms_arguments {values : List (List Char)} (h : values ≠ []) :
    readTerms (argumentTokens values) = some (values.map .constant, [.mark '.']) := by
  induction values with
  | nil => exact absurd rfl h
  | cons value values ih =>
    cases values with
    | nil => rfl
    | cons other rest =>
      rw [argumentTokens, readTerms, if_neg (by decide), if_pos rfl, ih (List.cons_ne_nil _ _)]
      rfl

/-- A line with a plain atom and a full stop is a fact. -/
theorem read_fact {a : GroundAtom} (h : a.Plain) : (tokens .between (a.written ++ ['.'])).bind readStatement = some [a.fact] := by
  obtain ⟨ch, word, hpredicate⟩ := List.exists_cons_of_ne_nil h.named
  obtain ⟨hch, hword⟩ := List.forall_mem_cons.mp (hpredicate ▸ h.word)
  have hplain : ∀ value ∈ a.arguments, ∀ ch ∈ value, ch ≠ '"' ∧ ch ≠ '\\' := fun value hvalue ch hch =>
    ⟨(h.arguments value hvalue ch hch).1, (h.arguments value hvalue ch hch).2.1⟩
  have htokens : tokens .between (a.written ++ ['.']) =
      some (.word a.predicate :: .mark '(' :: argumentTokens a.arguments) := by
    rw [GroundAtom.written, hpredicate, List.cons_append, List.cons_append, tokens, if_pos hch, List.append_assoc,
      List.cons_append, tokens_word hword, tokens_arguments hplain]
    rfl
  have hclause : readClause (.word a.predicate :: .mark '(' :: argumentTokens a.arguments) =
      some ⟨some ⟨a.predicate, a.arguments.map .constant⟩, [], []⟩ := by
    unfold readClause
    split
    · rename_i heq
      cases heq
    · rw [readLiteral, readTerms_arguments h.some_argument]
      rfl
  rw [htokens, Option.bind_some]
  show (readClause (.word a.predicate :: .mark '(' :: argumentTokens a.arguments)).map _ = _
  rw [hclause]
  rfl

theorem newline_notMem_written {a : GroundAtom} (h : a.Plain) : '\n' ∉ a.written ++ ['.'] := by
  have hword : '\n' ∉ a.predicate := fun hmem => absurd (h.word _ hmem) (by decide)
  have harguments : ∀ values : List (List Char), (∀ value ∈ values, '\n' ∉ value) → '\n' ∉ writtenArguments values := by
    intro values hvalues
    induction values with
    | nil => decide
    | cons value values ih =>
      obtain ⟨hvalue, hvalues⟩ := List.forall_mem_cons.mp hvalues
      cases values with
      | nil => simp [writtenArguments, hvalue]
      | cons other rest =>
        have hrest := ih hvalues
        simp [writtenArguments, hvalue, hrest]
  have hwritten := harguments a.arguments fun value hvalue hmem => (h.arguments value hvalue _ hmem).2.2 rfl
  simp [GroundAtom.written, hword, hwritten]

/-- Plain atoms with full stops, one a line, are these facts. -/
theorem readProgram_facts {atoms : List GroundAtom} (h : ∀ a ∈ atoms, a.Plain) :
    readProgram (['\n'].intercalate (atoms.map fun a => a.written ++ ['.'])) = some (atoms.map GroundAtom.fact) := by
  cases hempty : atoms with
  | nil => rfl
  | cons first rest =>
    rw [← hempty]
    have hlines : ∀ line ∈ atoms.map (fun a => a.written ++ ['.']), '\n' ∉ line :=
      List.forall_mem_map.mpr fun a ha => newline_notMem_written (h a ha)
    have hsome : (atoms.map fun a => a.written ++ ['.']) ≠ [] := by
      rw [hempty]
      exact List.cons_ne_nil _ _
    have hread : (atoms.map fun a => a.written ++ ['.']).mapM (fun line => (tokens .between line).bind readStatement) =
        some (atoms.map fun a => [a.fact]) := by
      clear hlines hsome hempty
      induction atoms with
      | nil => rfl
      | cons a atoms ih =>
        obtain ⟨ha, hatoms⟩ := List.forall_mem_cons.mp h
        rw [List.map_cons, List.mapM_cons, read_fact ha, ih hatoms]
        rfl
    rw [readProgram, List.splitOn_intercalate _ hlines hsome, hread]
    show some (atoms.map fun a => [a.fact]).flatten = _
    rw [← List.flatMap_def, List.map_eq_flatMap]

/-- A text below another is read after it. -/
theorem readProgram_append {text text' : List Char} {statements statements' : List Statement} (h : readProgram text = some statements)
    (h' : readProgram text' = some statements') : readProgram (text ++ '\n' :: text') = some (statements ++ statements') := by
  obtain ⟨lines, hlines, rfl⟩ := Option.map_eq_some_iff.mp h
  obtain ⟨lines', hlines', rfl⟩ := Option.map_eq_some_iff.mp h'
  rw [readProgram, List.splitOn_append_cons_self, List.mapM_append, hlines, hlines', ← List.flatten_append]
  rfl

end Lib.LogicPrograms
