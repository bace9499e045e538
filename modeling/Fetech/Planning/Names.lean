import Fetech.Planning.Structure

/-! The names of nodes: every id of a plan is lower-case letters, digits and dashes.

An id is written out, or it is a stem, an index and the name of a capability, of which the planner
knows all. So it means the same in any language that has strings. -/
namespace Fetech.Planning
open Lib.Except

def isSlugChar (ch : Char) : Bool := ch.isLower || ch.isDigit || ch == '-'

structure Slug (id : String) : Prop where
  ne_nil : id.toList ≠ []
  chars : ∀ ch ∈ id.toList, isSlugChar ch = true

/-- The name of a capability, before its underscores are replaced. -/
def isNameChar (ch : Char) : Bool := isSlugChar ch || ch == '_'

instance decidable_slug (id : String) : Decidable (Slug id) :=
  decidable_of_iff (id.toList ≠ [] ∧ id.toList.all isSlugChar = true)
    ⟨fun h => ⟨h.1, List.all_eq_true.mp h.2⟩, fun h => ⟨h.ne_nil, List.all_eq_true.mpr h.chars⟩⟩

/-- Lower-case letters, digits, dashes and underscores. -/
def Name (capability : String) : Prop := ∀ ch ∈ capability.toList, isNameChar ch = true

instance decidable_name (capability : String) : Decidable (Name capability) :=
  decidable_of_iff (capability.toList.all isNameChar = true) List.all_eq_true

theorem slugChar_dashed {capability : String} (h : Name capability) :
    ∀ ch ∈ (dashed capability).toList, isSlugChar ch = true := by
  intro ch hch
  rw [dashed, String.toList_ofList, List.mem_map] at hch
  obtain ⟨c, hc, rfl⟩ := hch
  have hname := h c hc
  split
  · decide
  · rename_i hne
    simpa [isNameChar, hne] using hname

theorem slugChar_digits (n : Nat) : ∀ ch ∈ Nat.toDigits 10 n, isSlugChar ch = true := by
  intro ch hch
  have hdigit := Nat.isDigit_of_mem_toDigits (by decide) (by decide) hch
  simp [isSlugChar, hdigit]

theorem slug_indexedId {stem : String} (hstem : stem.toList.all isSlugChar = true) (index : Nat)
    {capability : String} (h : Name capability) : Slug (indexedId stem index capability) where
  ne_nil := by
    rw [indexedId_toList]
    simp
  chars ch hch := by
    rw [indexedId_toList, List.mem_append, List.mem_append, List.mem_cons] at hch
    obtain hch | hch | rfl | hch := hch
    · exact List.all_eq_true.mp hstem ch hch
    · exact slugChar_digits index ch hch
    · decide
    · exact slugChar_dashed h ch hch

/-! ### The nodes of each stage -/

def Slugs (nodes : List PlanNode) : Prop := ∀ node ∈ nodes, Slug node.id

theorem slugs_nil : Slugs [] := List.forall_mem_nil _

theorem Slugs.append {nodes more : List PlanNode} (h : Slugs nodes) (hmore : Slugs more) : Slugs (nodes ++ more) :=
  List.forall_mem_append.mpr ⟨h, hmore⟩

theorem slugs_singleton {node : PlanNode} (id : String) (hid : node.id = id) (h : Slug id) : Slugs [node] := by
  intro n hn
  rw [List.mem_singleton.mp hn, hid]
  exact h

theorem chain_slugs {stem : String} {node : String → String → Option String → PlanNode}
    (hstem : stem.toList.all isSlugChar = true) (hid : ∀ id capability previous, (node id capability previous).id = id)
    {capabilities : List String} (h : ∀ c ∈ capabilities, Name c) (index : Nat) (previous : Option String) :
    Slugs (chain stem node index previous capabilities) := by
  intro n hn
  obtain ⟨i, -, c, hc, before, rfl⟩ := chain_ids _ _ _ n hn
  rw [hid]
  exact slug_indexedId hstem i (h c hc)

theorem family_slugs {stem : String} {node : String → String → PlanNode}
    (hstem : stem.toList.all isSlugChar = true) (hid : ∀ id capability, (node id capability).id = id)
    {capabilities : List String} (h : ∀ c ∈ capabilities, Name c) : Slugs (family stem node capabilities) := by
  intro n hn
  obtain ⟨i, hi, rfl⟩ := List.mem_mapIdx.mp hn
  rw [hid]
  exact slug_indexedId hstem i (h _ (List.getElem_mem hi))

theorem names_filter {all : List String} (hall : ∀ c ∈ all, Name c) (requested : String → Bool) :
    ∀ c ∈ all.filter requested, Name c := fun c hc => hall c (List.mem_of_mem_filter hc)

section
variable (d : Draft)

theorem sessionNodes_slugs : Slugs d.sessionNodes := by
  intro n hn
  have hall : ∀ c ∈ authSessionCapabilities, Slug ("auth-" ++ dashed c) := by decide
  obtain ⟨c, hc, rfl⟩ := List.mem_map.mp hn
  exact hall c (List.mem_of_mem_filter (List.mem_of_mem_take hc))

theorem csrfNodes_slugs : Slugs d.csrfNodes := by
  unfold Draft.csrfNodes
  split
  · exact slugs_singleton "auth-csrf-token" rfl (by decide)
  · exact slugs_nil

theorem formNodes_slugs : Slugs d.formNodes := by
  unfold Draft.formNodes
  split
  · exact slugs_singleton "auth-form-submit" rfl (by decide)
  · exact slugs_nil

theorem alternativesNodes_slugs : Slugs d.alternativesNodes := by
  unfold Draft.alternativesNodes
  split
  · exact slugs_singleton "alternatives" rfl (by decide)
  · exact slugs_nil

theorem readerNodes_slugs (dependency : String) : Slugs (d.readerNodes dependency) := by
  apply chain_slugs (by decide) (fun _ _ _ => rfl)
  split
  · decide
  · exact names_filter (by decide) _

theorem webNodes_slugs (available : Bool) : Slugs (d.webNodes available) := by
  apply ((alternativesNodes_slugs d).append (readerNodes_slugs d _)).append
  split
  · exact slugs_singleton "browser" rfl (by decide)
  · exact slugs_nil

theorem documentCapabilities_names (suffix : String) : ∀ c ∈ d.documentCapabilities suffix, Name c := by
  unfold Draft.documentCapabilities
  intro c hc
  dsimp only at hc
  split at hc
  · exact names_filter (by decide : ∀ c ∈ documentCapabilities, Name c) _ c hc
  · cases List.mem_singleton.mp hc
    cases hlookup : List.lookup suffix _ with
    | none => decide
    | some capability =>
      obtain ⟨before, after, heq, -⟩ := List.lookup_eq_some_iff.mp hlookup
      have hknown : ∀ entry ∈ before ++ (suffix, capability) :: after, Name entry.2 := by
        rw [← heq]
        decide
      exact hknown (suffix, capability) (by simp)

theorem mediaCapabilities_names (suffix : String) : ∀ c ∈ d.mediaCapabilities suffix, Name c := by
  unfold Draft.mediaCapabilities
  intro c hc
  dsimp only at hc
  split at hc
  · exact names_filter (by decide : ∀ c ∈ mediaCapabilities, Name c) _ c hc
  split at hc
  · cases List.mem_singleton.mp hc
    decide
  split at hc
  · cases List.mem_singleton.mp hc
    decide
  · cases List.mem_singleton.mp hc
    decide

theorem mainNodes_slugs {main : List PlanNode} {c : Codecs} {available : Option Bool} {suffix : String}
    (h : d.mainNodes c available suffix = .ok main) : Slugs main := by
  unfold Draft.mainNodes at h
  split at h
  · cases h
    exact slugs_singleton "crawl" rfl (by decide)
  split at h
  · split at h
    · cases h
      exact slugs_nil
    · split at h
      · cases h
        exact webNodes_slugs d _
      · cases h
  · cases h
    exact family_slugs (by decide) (fun _ _ => rfl) (documentCapabilities_names d suffix)
  · cases h
    exact family_slugs (by decide) (fun _ _ => rfl) (mediaCapabilities_names d suffix)
  · cases h
    exact slugs_singleton "archive" rfl (by decide)
  · cases hcapability : d.apiCapability c suffix with
    | error err =>
      rw [hcapability] at h
      cases h
    | ok capability =>
      rw [hcapability] at h
      cases h
      exact slugs_singleton "structured" rfl (by decide)
  · cases h
    exact slugs_nil

theorem ragProducer_slugs {p : Planner} {nodes main more : List PlanNode} {id : Option String}
    (h : p.ragProducer d nodes main = .ok (id, more)) : Slugs more := by
  unfold Planner.ragProducer at h
  split at h
  · cases h
    exact slugs_nil
  simp only [bind_eq_ok] at h
  obtain ⟨-, -, -, -, h⟩ := h
  split at h
  · cases h
    exact slugs_nil
  · cases h
    exact slugs_singleton "cache-producer-rag-document" rfl (by decide)

theorem browserProducer_slugs {p : Planner} {nodes more : List PlanNode} {id : Option String}
    (h : p.browserProducer d nodes = .ok (id, more)) : Slugs more := by
  unfold Planner.browserProducer at h
  split at h
  · cases h
    exact slugs_nil
  simp only [bind_eq_ok] at h
  obtain ⟨-, -, -, -, h⟩ := h
  split at h
  · cases h
    exact slugs_nil
  · simp only [bind_eq_ok] at h
    obtain ⟨-, -, -, -, h⟩ := h
    cases h
    exact slugs_singleton "cache-producer-browser-render" rfl (by decide)

end

theorem draftNodes_slugs {p : Planner} {d : Draft} {nodes : List PlanNode} (h : p.draftNodes d = .ok nodes) :
    Slugs nodes := by
  unfold Planner.draftNodes at h
  simp only [bind_eq_ok, ofOption_eq_ok] at h
  obtain ⟨-, -, capabilities, hcapabilities, suffix, -, main, hmain, rag, hrag, browser, hbrowser, h⟩ := h
  cases h
  have hpre : Slugs (d.preCacheNodes capabilities) := by
    apply chain_slugs (by decide) (fun _ _ _ => rfl)
    intro c hc
    exact names_filter (by decide : ∀ c ∈ preAcquisitionCacheCapabilities, Name c) _ c
      ((filterPermitted_sublist hcapabilities).subset hc)
  have hbase : ∀ node ∈ Draft.baseNodes, Slug node.id := by decide
  have hhttp : Slugs [d.httpNode (d.preCacheNodes capabilities)] := slugs_singleton "http" rfl (by decide)
  have hacquired := ((((Slugs.append hbase (sessionNodes_slugs d)).append hpre).append hhttp).append
    (csrfNodes_slugs d)).append (formNodes_slugs d)
  have hproducers := ((hacquired.append (mainNodes_slugs d hmain)).append (ragProducer_slugs d hrag)).append
    (browserProducer_slugs d hbrowser)
  exact hproducers.append (family_slugs (by decide) (fun _ _ => rfl) (names_filter (by decide) _))

/-- The ids of a plan. -/
theorem plan_slugs {p : Planner} {request : FetchRequest} {hbudget : request.budget.Valid} {plan : FetchPlan}
    (h : p.plan request hbudget = .ok plan) : Slugs plan.nodes := by
  obtain ⟨d, -, nodes, -, hnodes, hfiltered, -⟩ := plan_eq_ok h
  exact fun node hnode => draftNodes_slugs hnodes node ((filterPermitted_sublist hfiltered).subset hnode)

end Fetech.Planning
