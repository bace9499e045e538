import Fetech.Lib.AnswerSets
import Fetech.Logic
import Fetech.Planning.Structure

/-! What the rules of `logic/rules/planner.lp` prove of a plan.

The facts require every node, so the rules select the nodes and what they depend on; the
constraints then hold exactly when the dependencies are nodes and no node is denied or unavailable.
Of a plan of the deterministic planner only the last is left to ask. -/
namespace Fetech.Logic
open Planning Lib Lib.Except Lib.AnswerSets

/-- `planner.lp`, rule by rule. -/
inductive PlannerRule : Rule Atom → Prop
  | required (node : String) : PlannerRule {head := some (.selected node), positive := [.required node]}
  | depended (node dependency : String) :
    PlannerRule {head := some (.selected dependency), positive := [.selected node, .dependency node dependency]}
  | unavailable (node : String) : PlannerRule {head := none, positive := [.selected node, .unavailable node]}
  | denied (node : String) : PlannerRule {head := none, positive := [.selected node, .denied node]}
  | undeclared (node : String) : PlannerRule {head := none, positive := [.selected node], negative := [.node node]}
  | missed (node : String) : PlannerRule {head := none, positive := [.required node], negative := [.selected node]}

/-- The rules with facts below them. -/
def program (atoms : List Atom) : Program Atom := {r | PlannerRule r ∨ ∃ a ∈ atoms, r = .fact a}

theorem program_negates (atoms : List Atom) : NegatesInConstraints (program atoms) := by
  intro r hr hhead
  obtain hrule | hfact := hr
  · cases hrule with
    | required | depended => rfl
    | unavailable | denied | undeclared | missed => exact absurd rfl hhead
  · obtain ⟨a, -, rfl⟩ := hfact
    rfl

/-! ### What is derived -/

/-- The nodes that facts require, and what they depend on. -/
inductive Chosen (atoms : List Atom) : String → Prop
  | required {node : String} (h : .required node ∈ atoms) : Chosen atoms node
  | depended {node dependency : String} (hnode : Chosen atoms node) (h : .dependency node dependency ∈ atoms) :
    Chosen atoms dependency

/-- What the facts and the rules make true. -/
def conclusions (atoms : List Atom) : Set Atom := {a | a ∈ atoms ∨ ∃ node, a = .selected node ∧ Chosen atoms node}

variable {atoms : List Atom}

theorem Chosen.derived {node : String} (h : Chosen atoms node) : Derived (program atoms) (.selected node) := by
  have hfact : ∀ a ∈ atoms, Derived (program atoms) a := fun a ha => derived_fact (.inr ⟨a, ha, rfl⟩)
  induction h with
  | required hrequired => exact .rule (.inl (.required _)) rfl (List.forall_mem_singleton.mpr (hfact _ hrequired))
  | depended _ hdependency ih =>
    exact .rule (.inl (.depended _ _)) rfl
      (List.forall_mem_cons.mpr ⟨ih, List.forall_mem_singleton.mpr (hfact _ hdependency)⟩)

/-- The rules derive the nodes that are chosen, and nothing else. -/
theorem derived_iff (hfacts : ∀ node, .selected node ∉ atoms) {a : Atom} :
    Derived (program atoms) a ↔ a ∈ conclusions atoms := by
  constructor
  · intro h
    apply h.mem
    intro r hr a hhead hbody
    obtain hrule | hfact := hr
    · cases hrule with
      | required node =>
        cases hhead
        obtain hmem | hchosen := hbody (.required node) (List.mem_singleton_self _)
        · exact .inr ⟨node, rfl, .required hmem⟩
        · obtain ⟨_, heq, -⟩ := hchosen
          cases heq
      | depended node dependency =>
        cases hhead
        have hnode : Chosen atoms node := by
          obtain hmem | hchosen := hbody (.selected node) List.mem_cons_self
          · exact absurd hmem (hfacts node)
          · obtain ⟨_, heq, hchosen⟩ := hchosen
            cases heq
            exact hchosen
        obtain hmem | hchosen := hbody (.dependency node dependency) (by simp)
        · exact .inr ⟨dependency, rfl, .depended hnode hmem⟩
        · obtain ⟨_, heq, -⟩ := hchosen
          cases heq
      | unavailable | denied | undeclared | missed => cases hhead
    · obtain ⟨b, hb, rfl⟩ := hfact
      cases hhead
      exact .inl hb
  · intro h
    obtain hmem | hchosen := h
    · exact derived_fact (.inr ⟨a, hmem, rfl⟩)
    · obtain ⟨node, rfl, hchosen⟩ := hchosen
      exact hchosen.derived

/-- What the constraints ask of the nodes that are chosen. -/
structure Consistent (atoms : List Atom) : Prop where
  available : ∀ node, Chosen atoms node → .unavailable node ∉ atoms
  allowed : ∀ node, Chosen atoms node → .denied node ∉ atoms
  declared : ∀ node, Chosen atoms node → .node node ∈ atoms

theorem selected_mem_conclusions (hfacts : ∀ node, .selected node ∉ atoms) {node : String} :
    .selected node ∈ conclusions atoms ↔ Chosen atoms node := by
  simp [conclusions, hfacts]

/-- **What the rules prove**: the conclusions are the one answer set, if the constraints hold. -/
theorem isAnswerSet_program (hfacts : ∀ node, .selected node ∉ atoms) {M : Set Atom} :
    IsAnswerSet (program atoms) M ↔ M = conclusions atoms ∧ Consistent atoms := by
  have hset : {a | Derived (program atoms) a} = conclusions atoms := Set.ext fun _ => derived_iff hfacts
  rw [isAnswerSet_iff (program_negates atoms), hset]
  apply and_congr_right'
  constructor
  · intro h
    refine ⟨fun node hnode hmem => ?_, fun node hnode hmem => ?_, fun node hnode => ?_⟩
    · apply h _ (.inl (.unavailable node)) rfl
      simp [Rule.Fires, conclusions, hnode, hmem]
    · apply h _ (.inl (.denied node)) rfl
      simp [Rule.Fires, conclusions, hnode, hmem]
    · by_contra hmem
      apply h _ (.inl (.undeclared node)) rfl
      simp [Rule.Fires, conclusions, hnode, hmem]
  · intro h r hr hhead hfires
    obtain hrule | hfact := hr
    · cases hrule with
      | required | depended => cases hhead
      | unavailable node =>
        simp only [Rule.Fires, List.forall_mem_cons, selected_mem_conclusions hfacts] at hfires
        obtain ⟨⟨hnode, hmem, -⟩, -⟩ := hfires
        exact h.available node hnode (by simpa [conclusions] using hmem)
      | denied node =>
        simp only [Rule.Fires, List.forall_mem_cons, selected_mem_conclusions hfacts] at hfires
        obtain ⟨⟨hnode, hmem, -⟩, -⟩ := hfires
        exact h.allowed node hnode (by simpa [conclusions] using hmem)
      | undeclared node =>
        simp only [Rule.Fires, List.forall_mem_cons, selected_mem_conclusions hfacts] at hfires
        obtain ⟨⟨hnode, -⟩, hmem, -⟩ := hfires
        exact hmem (.inl (h.declared node hnode))
      | missed node =>
        simp only [Rule.Fires, List.forall_mem_cons, selected_mem_conclusions hfacts] at hfires
        obtain ⟨⟨hmem, -⟩, hnot, -⟩ := hfires
        exact hnot (.required (by simpa [conclusions] using hmem))
    · obtain ⟨b, -, rfl⟩ := hfact
      cases hhead

/-! ### The facts about a list of nodes -/

section
variable {registry : CapabilityRegistry} {version : String} {request : FetchRequest} {nodes : List PlanNode}

theorem mem_nodeFacts {node : PlanNode} (h : nodeFacts registry request node = .ok atoms) (a : Atom) :
    a ∈ atoms ↔ ∃ entry, registry.get node.capabilityId = some entry ∧
      (a = .node node.id ∨ a = .required node.id ∨ (a = .unavailable node.id ∧ entry.implementationAvailable = false) ∨
        (a = .denied node.id ∧ entry.id ∈ request.denyCapabilities) ∨ ∃ d ∈ node.dependencies, .dependency node.id d = a) := by
  simp only [nodeFacts, bind_eq_ok, ofOption_eq_ok] at h
  obtain ⟨entry, hentry, h⟩ := h
  cases h
  have hunavailable : a ∈ (if entry.implementationAvailable then [] else [.unavailable node.id]) ↔
      a = .unavailable node.id ∧ entry.implementationAvailable = false := by
    cases entry.implementationAvailable <;> simp
  have hdenied : a ∈ (if request.denyCapabilities.contains entry.id then [.denied node.id] else []) ↔
      a = .denied node.id ∧ entry.id ∈ request.denyCapabilities := by
    by_cases hmem : entry.id ∈ request.denyCapabilities <;> simp [hmem]
  simp only [List.mem_append, List.mem_cons, List.not_mem_nil, or_false, hunavailable, hdenied, List.mem_map, hentry,
    Option.some.injEq, exists_eq_left', or_assoc]

theorem mem_facts (h : facts registry version request nodes = .ok atoms) (a : Atom) :
    a ∈ atoms ↔ a = .manifestVersion version ∨ ∃ node ∈ nodes, ∃ entry, registry.get node.capabilityId = some entry ∧
      (a = .node node.id ∨ a = .required node.id ∨ (a = .unavailable node.id ∧ entry.implementationAvailable = false) ∨
        (a = .denied node.id ∧ entry.id ∈ request.denyCapabilities) ∨ ∃ d ∈ node.dependencies, .dependency node.id d = a) := by
  simp only [facts, bind_eq_ok] at h
  obtain ⟨ofNodes, hofNodes, h⟩ := h
  cases h
  rw [List.mem_cons, List.mem_flatten]
  apply or_congr_right
  constructor
  · intro hmem
    obtain ⟨list, hlist, ha⟩ := hmem
    obtain ⟨node, hnode, hfacts⟩ := (mem_mapM_iff hofNodes list).mp hlist
    exact ⟨node, hnode, (mem_nodeFacts hfacts a).mp ha⟩
  · intro hmem
    obtain ⟨node, hnode, hmem⟩ := hmem
    obtain ⟨list, hfacts⟩ := exists_mapM_iff.mp ⟨ofNodes, hofNodes⟩ node hnode
    exact ⟨list, (mem_mapM_iff hofNodes list).mpr ⟨node, hnode, hfacts⟩, (mem_nodeFacts hfacts a).mpr hmem⟩

theorem registered_of_facts (h : facts registry version request nodes = .ok atoms) :
    ∀ node ∈ nodes, ∃ entry, registry.get node.capabilityId = some entry := by
  simp only [facts, bind_eq_ok] at h
  obtain ⟨ofNodes, hofNodes, -⟩ := h
  intro node hnode
  obtain ⟨list, hfacts⟩ := exists_mapM_iff.mp ⟨ofNodes, hofNodes⟩ node hnode
  simp only [nodeFacts, bind_eq_ok, ofOption_eq_ok] at hfacts
  obtain ⟨entry, hentry, -⟩ := hfacts
  exact ⟨entry, hentry⟩

theorem selected_notMem_facts (h : facts registry version request nodes = .ok atoms) (node : String) :
    .selected node ∉ atoms := by
  simp [mem_facts h]

theorem chosen_facts_iff (h : facts registry version request nodes = .ok atoms) {id : String} :
    Chosen atoms id ↔ id ∈ nodes.map (·.id) ∨ ∃ node ∈ nodes, id ∈ node.dependencies := by
  have hentry : ∀ node ∈ nodes, ∃ entry, registry.get node.capabilityId = some entry := registered_of_facts h
  have hids : ∀ id, .required id ∈ atoms ↔ id ∈ nodes.map (·.id) := by
    intro id
    simp only [mem_facts h, List.mem_map]
    constructor
    · intro hmem
      obtain heq | ⟨node, hnode, _, -, heq | heq | ⟨heq, -⟩ | ⟨heq, -⟩ | ⟨_, -, heq⟩⟩ := hmem
      all_goals cases heq
      exact ⟨node, hnode, rfl⟩
    · intro hmem
      obtain ⟨node, hnode, rfl⟩ := hmem
      obtain ⟨entry, hentry⟩ := hentry node hnode
      exact .inr ⟨node, hnode, entry, hentry, by simp⟩
  constructor
  · intro hchosen
    cases hchosen with
    | required hmem => exact .inl ((hids id).mp hmem)
    | depended _ hmem =>
      rw [mem_facts h] at hmem
      obtain heq | ⟨node, hnode, _, -, heq | heq | ⟨heq, -⟩ | ⟨heq, -⟩ | ⟨d, hd, heq⟩⟩ := hmem
      all_goals cases heq
      exact .inr ⟨node, hnode, hd⟩
  · intro hmem
    obtain hmem | ⟨node, hnode, hd⟩ := hmem
    · exact .required ((hids id).mpr hmem)
    · obtain ⟨entry, hentry⟩ := hentry node hnode
      have hchosen : Chosen atoms node.id := .required ((hids _).mpr (List.mem_map_of_mem hnode))
      exact hchosen.depended ((mem_facts h _).mpr (.inr ⟨node, hnode, entry, hentry, by simp [hd]⟩))

/-- What the constraints ask of a list of nodes. -/
structure Provable (registry : CapabilityRegistry) (request : FetchRequest) (nodes : List PlanNode) : Prop where
  closed : ∀ node ∈ nodes, ∀ d ∈ node.dependencies, d ∈ nodes.map (·.id)
  allowed : ∀ node ∈ nodes, ∀ entry, registry.get node.capabilityId = some entry → entry.id ∉ request.denyCapabilities
  available : ∀ node ∈ nodes, ∀ entry, registry.get node.capabilityId = some entry → entry.implementationAvailable = true

theorem consistent_facts_iff (h : facts registry version request nodes = .ok atoms) :
    Consistent atoms ↔ Provable registry request nodes := by
  have hchosen : ∀ node ∈ nodes, Chosen atoms node.id := fun node hnode =>
    (chosen_facts_iff h).mpr (.inl (List.mem_map_of_mem hnode))
  constructor
  · intro hconsistent
    refine ⟨fun node hnode d hd => ?_, fun node hnode entry hentry hdenied => ?_, fun node hnode entry hentry => ?_⟩
    · have hdeclared := hconsistent.declared d ((chosen_facts_iff h).mpr (.inr ⟨node, hnode, hd⟩))
      rw [mem_facts h] at hdeclared
      obtain heq | ⟨other, hother, _, -, heq | heq | ⟨heq, -⟩ | ⟨heq, -⟩ | ⟨_, -, heq⟩⟩ := hdeclared
      all_goals cases heq
      exact List.mem_map_of_mem hother
    · apply hconsistent.allowed node.id (hchosen node hnode)
      exact (mem_facts h _).mpr (.inr ⟨node, hnode, entry, hentry, by simp [hdenied]⟩)
    · by_contra hunavailable
      rw [Bool.not_eq_true] at hunavailable
      apply hconsistent.available node.id (hchosen node hnode)
      exact (mem_facts h _).mpr (.inr ⟨node, hnode, entry, hentry, by simp [hunavailable]⟩)
  · intro hprovable
    refine ⟨fun id _ hmem => ?_, fun id _ hmem => ?_, fun id hid => ?_⟩
    · rw [mem_facts h] at hmem
      obtain heq | ⟨node, hnode, entry, hentry, heq | heq | ⟨heq, hmissing⟩ | ⟨heq, -⟩ | ⟨_, -, heq⟩⟩ := hmem
      all_goals cases heq
      exact Bool.false_ne_true (hmissing.symm.trans (hprovable.available node hnode entry hentry))
    · rw [mem_facts h] at hmem
      obtain heq | ⟨node, hnode, entry, hentry, heq | heq | ⟨heq, -⟩ | ⟨heq, hdenied⟩ | ⟨_, -, heq⟩⟩ := hmem
      all_goals cases heq
      exact hprovable.allowed node hnode entry hentry hdenied
    · have hids : id ∈ nodes.map (·.id) := by
        obtain hmem | ⟨node, hnode, hd⟩ := (chosen_facts_iff h).mp hid
        · exact hmem
        · exact hprovable.closed node hnode id hd
      obtain ⟨node, hnode, rfl⟩ := List.mem_map.mp hids
      obtain ⟨entry, hentry⟩ := registered_of_facts h node hnode
      exact (mem_facts h _).mpr (.inr ⟨node, hnode, entry, hentry, .inl rfl⟩)

/-- The facts, with every node selected. -/
def selection (atoms : List Atom) (nodes : List PlanNode) : Set Atom :=
  {a | a ∈ atoms ∨ ∃ node ∈ nodes, a = .selected node.id}

theorem conclusions_of_closed (h : facts registry version request nodes = .ok atoms)
    (hclosed : ∀ node ∈ nodes, ∀ d ∈ node.dependencies, d ∈ nodes.map (·.id)) :
    conclusions atoms = selection atoms nodes := by
  apply Set.ext
  intro a
  apply or_congr_right
  constructor
  · intro hchosen
    obtain ⟨id, rfl, hid⟩ := hchosen
    have hids : id ∈ nodes.map (·.id) := by
      obtain hmem | ⟨node, hnode, hd⟩ := (chosen_facts_iff h).mp hid
      · exact hmem
      · exact hclosed node hnode id hd
    obtain ⟨node, hnode, rfl⟩ := List.mem_map.mp hids
    exact ⟨node, hnode, rfl⟩
  · intro hselected
    obtain ⟨node, hnode, rfl⟩ := hselected
    exact ⟨node.id, rfl, (chosen_facts_iff h).mpr (.inl (List.mem_map_of_mem hnode))⟩

/-- **What the solver can answer** about any nodes. -/
theorem isAnswerSet_facts (h : facts registry version request nodes = .ok atoms) {M : Set Atom} :
    IsAnswerSet (program atoms) M ↔ M = selection atoms nodes ∧ Provable registry request nodes := by
  rw [isAnswerSet_program (selected_notMem_facts h), consistent_facts_iff h]
  constructor
  · intro hM
    exact ⟨hM.1.trans (conclusions_of_closed h hM.2.closed), hM.2⟩
  · intro hM
    exact ⟨hM.1.trans (conclusions_of_closed h hM.2.closed).symm, hM.2⟩

end

/-! ### The plans of the deterministic planner -/

section
variable {p : Planner} {request : FetchRequest} {hbudget : request.budget.Valid} {plan : FetchPlan}

/-- What `get` finds has the canonical id. -/
theorem get_id {registry : CapabilityRegistry} {capability canonical : String} {entry : CapabilityManifestEntry}
    (hentry : registry.get capability = some entry) (hcanonical : registry.resolveId capability = some canonical) :
    entry.id = canonical := by
  simp only [CapabilityRegistry.get, hcanonical, Option.bind_eq_bind, Option.bind_some] at hentry
  simpa using List.find?_some hentry

/-- Facts can be given of a plan, and the constraints ask of it only what the planner does not. -/
theorem plan_provable (hplan : p.plan request hbudget = .ok plan) :
    (∀ version, ∃ atoms, facts p.registry version request plan.nodes = .ok atoms) ∧
    (Provable p.registry request plan.nodes ↔ ∀ node ∈ plan.nodes, ∀ entry,
      p.registry.get node.capabilityId = some entry → entry.implementationAvailable = true) := by
  obtain ⟨d, hd, nodes, hdraft, -, hfiltered, -, hvalid, -⟩ := plan_eq_ok hplan
  constructor
  · intro version
    have hfacts : ∀ node ∈ plan.nodes, ∃ atoms, nodeFacts p.registry request node = .ok atoms := by
      intro node hnode
      obtain ⟨entry, hentry⟩ := Option.isSome_iff_exists.mp (validateNodes_registered hvalid node hnode)
      exact ⟨_, by rw [nodeFacts, hentry]; rfl⟩
    obtain ⟨ofNodes, hofNodes⟩ := exists_mapM_iff.mpr hfacts
    exact ⟨_, by rw [facts, hofNodes]; rfl⟩
  · constructor
    · exact Provable.available
    · intro havailable
      refine ⟨validateNodes_closed hvalid, fun node hnode entry hentry => ?_, havailable⟩
      obtain ⟨canonical, hcanonical, hallows⟩ := permitted_iff.mp (filterPermitted_permitted hfiltered node hnode)
      rw [allows_iff, (draft_policy hdraft).2] at hallows
      rw [get_id hentry hcanonical]
      exact hallows.1

/-- **The rules prove a plan**: of every plan of the deterministic planner they have the one answer
set that selects its nodes if every capability in it is implemented, and none otherwise. -/
theorem planner_rules_answer (p : Planner) (request : FetchRequest) (hbudget : request.budget.Valid) (plan : FetchPlan)
    (hplan : p.plan request hbudget = .ok plan) (version : String) :
    ∃ atoms, facts p.registry version request plan.nodes = .ok atoms ∧
      ∀ M, IsAnswerSet (program atoms) M ↔ M = selection atoms plan.nodes ∧ ∀ node ∈ plan.nodes, ∀ entry,
        p.registry.get node.capabilityId = some entry → entry.implementationAvailable = true := by
  obtain ⟨hfacts, hprovable⟩ := plan_provable hplan
  obtain ⟨atoms, hatoms⟩ := hfacts version
  refine ⟨atoms, hatoms, fun M => ?_⟩
  rw [isAnswerSet_facts hatoms, hprovable]

theorem planner_rules_answer_form : ∃ atoms, facts webPlanner.registry "1.0" formRequest formPlan.nodes = .ok atoms ∧
    ∀ M, IsAnswerSet (program atoms) M ↔ M = selection atoms formPlan.nodes := by
  obtain ⟨atoms, hatoms, hsets⟩ := planner_rules_answer webPlanner formRequest (by decide) formPlan (by rfl) "1.0"
  have himplemented : ∀ entry ∈ webPlanner.registry.entries, entry.implementationAvailable = true := by decide
  refine ⟨atoms, hatoms, fun M => (hsets M).trans (and_iff_left fun node _ entry hentry => ?_)⟩
  obtain ⟨_, -, hfound⟩ := Option.bind_eq_some_iff.mp hentry
  exact himplemented entry (List.mem_of_find?_eq_some hfound)

end

end Fetech.Logic
