import Fetech.Planning.Structure

/-! Aliases in a request's capability policy.

`plan` resolves the outputs a request names before it looks at them, and the capability
of a node before it asks the policy about it; the sets of the policy it reads as they
are. So the policy speaks of a capability only under its canonical id, and an alias in
either set has no effect. -/
namespace Fetech

namespace CapabilityRegistry
variable {registry : CapabilityRegistry}

/-- Another name of a registered capability. -/
def IsAlias (registry : CapabilityRegistry) (name id : String) : Prop :=
  ∃ entry ∈ registry.entries, entry.id = id ∧ name ∈ entry.aliases

/-- `_validate` keeps aliases and canonical ids apart. -/
theorem IsAlias.notMem_ids {name id : String} (h : registry.IsAlias name id) : name ∉ registry.entries.map (·.id) := by
  obtain ⟨entry, hentry, -, hname⟩ := h
  exact registry.noCollisions entry hentry name hname

theorem resolveId_registered {name id : String} (h : registry.resolveId name = some id) :
    id ∈ registry.entries.map (·.id) := by
  unfold resolveId at h
  split at h
  · rename_i hany
    cases h
    obtain ⟨entry, hentry, heq⟩ := List.any_eq_true.mp hany
    exact List.mem_map.mpr ⟨entry, hentry, beq_iff_eq.mp heq⟩
  · obtain ⟨entry, hfound, rfl⟩ := Option.map_eq_some_iff.mp h
    exact List.mem_map_of_mem (List.mem_of_find?_eq_some hfound)

theorem get_registered {name : String} {entry : CapabilityManifestEntry} (h : registry.get name = some entry) :
    entry.id ∈ registry.entries.map (·.id) := by
  obtain ⟨id, -, hfound⟩ := Option.bind_eq_some_iff.mp h
  exact List.mem_map_of_mem (List.mem_of_find?_eq_some hfound)

end CapabilityRegistry

namespace Planning
open Lib.Except

/-! ### Requests the policy treats alike -/

/-- Two requests whose policies agree on every registered capability. -/
def SamePolicy (p : Planner) (r r' : FetchRequest) : Prop :=
  ∀ id ∈ p.registry.entries.map (·.id), Planner.allows r' id = Planner.allows r id

section
variable {p : Planner} {r r' : FetchRequest}

theorem SamePolicy.permitted (h : SamePolicy p r r') (capability : String) :
    p.permitted capability r' = p.permitted capability r := by
  unfold Planner.permitted
  cases hresolve : p.registry.resolveId capability with
  | none => rfl
  | some id => simp only [h id (CapabilityRegistry.resolveId_registered hresolve)]

theorem SamePolicy.filterPermitted (h : SamePolicy p r r') {α : Type} (capability : α → String) (list : List α) :
    p.filterPermitted r' capability list = p.filterPermitted r capability list := by
  induction list with
  | nil => rfl
  | cons a rest ih => simp only [Planner.filterPermitted, h.permitted, ih]

end

/-- A draft under another policy. -/
def Draft.withPolicy (d : Draft) (deny allow : List String) : Draft :=
  {d with request := {d.request with denyCapabilities := deny, allowCapabilities := allow}}

section
variable {p : Planner} {d : Draft} {deny allow : List String}

theorem draftNodes_samePolicy (h : SamePolicy p d.request (d.withPolicy deny allow).request) :
    p.draftNodes (d.withPolicy deny allow) = p.draftNodes d := by
  simp only [Planner.draftNodes, Planner.ragProducer, Planner.browserProducer, h.permitted, h.filterPermitted]
  rfl

/-- The last checks of a plan read the policy on what is required only. -/
theorem requireAll_congr {required : List String} (scheduled : List String) {f g : String → Bool}
    (h : ∀ id ∈ required, f id = g id) :
    (do
      require (required.filter fun id => !f id).isEmpty (.denied (Planner.sorted (required.filter fun id => !f id)))
      require (required.filter fun id => f id && !scheduled.contains id).isEmpty
        (.missing (Planner.sorted (required.filter fun id => f id && !scheduled.contains id))) :
      Except PlanError Unit) =
    (do
      require (required.filter fun id => !g id).isEmpty (.denied (Planner.sorted (required.filter fun id => !g id)))
      require (required.filter fun id => g id && !scheduled.contains id).isEmpty
        (.missing (Planner.sorted (required.filter fun id => g id && !scheduled.contains id)))) := by
  have hdenied : (required.filter fun id => !f id) = required.filter fun id => !g id :=
    List.filter_congr fun id hid => by rw [h id hid]
  have hmissing : (required.filter fun id => f id && !scheduled.contains id) =
      required.filter fun id => g id && !scheduled.contains id :=
    List.filter_congr fun id hid => by rw [h id hid]
  rw [hdenied, hmissing]

theorem validateOutputs_samePolicy (h : SamePolicy p d.request (d.withPolicy deny allow).request)
    (nodes : List PlanNode) : p.validateRequestedSchedulableOutputs (d.withPolicy deny allow) nodes =
      p.validateRequestedSchedulableOutputs d nodes := by
  have hrequired : ∀ id ∈ (d.request.outputRequirements.filterMap (p.mustBeScheduled d nodes)).map (·.id),
      Planner.allows (d.withPolicy deny allow).request id = Planner.allows d.request id := by
    intro id hid
    obtain ⟨entry, hentry, rfl⟩ := List.mem_map.mp hid
    obtain ⟨name, -, hname⟩ := List.mem_filterMap.mp hentry
    simp only [Planner.mustBeScheduled, Option.bind_eq_bind, Option.bind_eq_some_iff] at hname
    obtain ⟨-, -, found, hget, -, -, -, -, -, -, heq⟩ := hname
    cases heq
    exact h _ (CapabilityRegistry.get_registered hget)
  exact requireAll_congr _ hrequired

theorem bind_samePolicy (hbudget : d.request.budget.Valid) (nodes : List PlanNode) :
    (p.bind (d.withPolicy deny allow) hbudget nodes).map (·.nodes) = (p.bind d hbudget nodes).map (·.nodes) := by
  unfold Planner.bind
  cases hnormal : normalizeUrl p.codecs d.target with
  | none =>
    have hnormal' : normalizeUrl p.codecs (d.withPolicy deny allow).target = none := hnormal
    rw [hnormal']
    rfl
  | some target =>
    have hnormal' : normalizeUrl p.codecs (d.withPolicy deny allow).target = some target := hnormal
    rw [hnormal']
    simp only [ofOption, bind, Except.bind, Planner.sanitizeUrlForRequest, Draft.withPolicy]
    cases p.sanitizeUrl target d.request.authenticationRef.isSome ==
      p.sanitizeUrl d.target d.request.authenticationRef.isSome with
    | false => rfl
    | true => rfl

end

/-- A request under another policy. -/
def withPolicy (r : FetchRequest) (deny allow : List String) : FetchRequest :=
  {r with denyCapabilities := deny, allowCapabilities := allow}

theorem draft_withPolicy (p : Planner) (r : FetchRequest) (deny allow : List String) :
    p.draft (withPolicy r deny allow) =
      (p.draft r).map fun d => ⟨d.1.withPolicy deny allow, d.2⟩ := by
  unfold Planner.draft
  cases hnormal : normalizeUrl p.codecs r.target with
  | none =>
    have hnormal' : normalizeUrl p.codecs (withPolicy r deny allow).target = none := hnormal
    rw [hnormal']
    rfl
  | some target =>
    have hnormal' : normalizeUrl p.codecs (withPolicy r deny allow).target = some target := hnormal
    rw [hnormal']
    simp only [ofOption, bind, Except.bind, withPolicy]
    cases classifyTarget p.codecs target (r.outputRequirements.map p.canonicalOutputRequirement).eraseDups with
    | none => rfl
    | some family => rfl

/-- `plan` reads the policy through what it says of registered capabilities. -/
theorem plan_samePolicy {p : Planner} {r : FetchRequest} {deny allow : List String}
    (h : SamePolicy p r (withPolicy r deny allow)) (hbudget : r.budget.Valid) :
    (p.plan (withPolicy r deny allow) hbudget).map (·.nodes) = (p.plan r hbudget).map (·.nodes) := by
  unfold Planner.plan
  rw [draft_withPolicy]
  cases hdraft : p.draft r with
  | error err => rfl
  | ok draft =>
    obtain ⟨d, hd⟩ := draft
    have hsame : SamePolicy p d.request (d.withPolicy deny allow).request := by
      intro id hid
      have hid' := h id hid
      simp only [Planner.allows, withPolicy] at hid'
      simp only [Planner.allows, Draft.withPolicy, hid', (draft_policy hdraft).1, (draft_policy hdraft).2]
    simp only [Except.map, bind, Except.bind, draftNodes_samePolicy hsame]
    cases p.draftNodes d with
    | error err => rfl
    | ok nodes =>
      simp only [hsame.filterPermitted]
      cases p.filterPermitted d.request (·.capabilityId) nodes with
      | error err => rfl
      | ok filtered =>
        simp only [validateOutputs_samePolicy hsame]
        cases require (filtered.any (httpCapabilities.contains ·.capabilityId)) PlanError.httpDenied with
        | error err => rfl
        | ok _ =>
          cases p.validateNodes filtered filtered with
          | error err => rfl
          | ok _ =>
            cases p.validateRequestedSchedulableOutputs d filtered with
            | error err => rfl
            | ok _ => exact bind_samePolicy _ filtered

/-! ### Spellings -/

/-- The capabilities `plan` schedules, under their canonical ids; none where it raises. -/
def Planner.scheduled (p : Planner) (r : FetchRequest) (hbudget : r.budget.Valid) : List String :=
  match p.plan r hbudget with
  | .ok plan => plan.nodes.filterMap fun node => p.registry.resolveId node.capabilityId
  | .error _ => []

/-- One name put for another in a set of capabilities. -/
def respell (old new : String) (set : List String) : List String :=
  set.map fun name => if name = old then new else name

/-- The same request, with one name put for another in one of the sets or in both. -/
def Respelled (old new : String) (r r' : FetchRequest) : Prop :=
  ∃ deny allow, (deny = r.denyCapabilities ∨ deny = respell old new r.denyCapabilities) ∧
    (allow = r.allowCapabilities ∨ allow = respell old new r.allowCapabilities) ∧ r' = withPolicy r deny allow

/-- A capability whose own id is not denied, and is let through by the allowed ones. -/
def Standing (r : FetchRequest) (id : String) : Prop :=
  id ∉ r.denyCapabilities ∧ (r.allowCapabilities = [] ∨ id ∈ r.allowCapabilities ∨
    id ∈ "url_normalisation" :: "url_validation" :: httpCapabilities)

theorem mem_respell {old new : String} {set : List String} {x : String} (hold : x ≠ old) (hnew : x ≠ new) :
    x ∈ respell old new set ↔ x ∈ set := by
  unfold respell
  induction set with
  | nil => exact Iff.rfl
  | cons name rest ih =>
    rw [List.map_cons, List.mem_cons, List.mem_cons, ih]
    split
    · rename_i heq
      simp only [heq, hold, hnew]
    · exact Iff.rfl

theorem respell_eq_nil {old new : String} {set : List String} : respell old new set = [] ↔ set = [] :=
  List.map_eq_nil_iff

/-- A respelled policy speaks as before of every capability but the two names. -/
theorem Respelled.standing {old new : String} {r r' : FetchRequest} (h : Respelled old new r r') {x : String}
    (hold : x ≠ old) (hnew : x ≠ new) : Standing r' x ↔ Standing r x := by
  obtain ⟨deny, allow, hdeny, hallow, rfl⟩ := h
  have hd : x ∈ deny ↔ x ∈ r.denyCapabilities := by
    rcases hdeny with rfl | rfl
    · exact Iff.rfl
    · exact mem_respell hold hnew
  have ha : (x ∈ allow ↔ x ∈ r.allowCapabilities) ∧ (allow = [] ↔ r.allowCapabilities = []) := by
    rcases hallow with rfl | rfl
    · exact ⟨Iff.rfl, Iff.rfl⟩
    · exact ⟨mem_respell hold hnew, respell_eq_nil⟩
  simp only [Standing, withPolicy, hd, ha.1, ha.2]

/-- What is scheduled has standing. -/
theorem standing_of_scheduled {p : Planner} {r : FetchRequest} {hbudget : r.budget.Valid} {id : String}
    (h : id ∈ p.scheduled r hbudget) : Standing r id := by
  unfold Planner.scheduled at h
  split at h
  · rename_i plan hplan
    obtain ⟨node, hnode, hresolve⟩ := List.mem_filterMap.mp h
    obtain ⟨d, hd, nodes, hdraft, -, hfiltered, -⟩ := plan_eq_ok hplan
    obtain ⟨canonical, hcanonical, hallows⟩ := permitted_iff.mp (filterPermitted_permitted hfiltered node hnode)
    rw [allows_iff, (draft_policy hdraft).1, (draft_policy hdraft).2] at hallows
    cases hcanonical.symm.trans hresolve
    exact hallows
  · cases h

theorem scheduled_samePolicy {p : Planner} {r : FetchRequest} {deny allow : List String}
    (h : SamePolicy p r (withPolicy r deny allow)) (hbudget : r.budget.Valid) :
    p.scheduled (withPolicy r deny allow) hbudget = p.scheduled r hbudget := by
  have hplan := plan_samePolicy h hbudget
  unfold Planner.scheduled
  cases hnew : p.plan (withPolicy r deny allow) hbudget with
  | error err =>
    rw [hnew] at hplan
    cases hold : p.plan r hbudget with
    | error _ => rfl
    | ok plan =>
      rw [hold] at hplan
      cases hplan
  | ok plan' =>
    rw [hnew] at hplan
    cases hold : p.plan r hbudget with
    | error _ =>
      rw [hold] at hplan
      cases hplan
    | ok plan =>
      rw [hold] at hplan
      have hnodes : plan'.nodes = plan.nodes := by simpa only [Except.map, Except.ok.injEq] using hplan
      simp only [hnodes]

/-- Putting an alias for an id in the policy, or the id for the alias, leaves what is
scheduled alone exactly when it leaves the standing of the id alone: when either request
schedules the capability, the two schedule the same only then. And what has no standing
is not scheduled, which for a denied alias is not the case unless the id is denied too,
or not allowed. -/
theorem spelling_keeps_schedule (p : Planner) (r r' : FetchRequest) (hbudget : r.budget.Valid)
    (hbudget' : r'.budget.Valid) (name id : String) (halias : p.registry.IsAlias name id)
    (hspelled : Respelled name id r r' ∨ Respelled id name r r') :
    ((Standing r id ↔ Standing r' id) → ∀ x, x ∈ p.scheduled r' hbudget' ↔ x ∈ p.scheduled r hbudget) ∧
    (id ∈ p.scheduled r hbudget ∨ id ∈ p.scheduled r' hbudget' →
      ((∀ x, x ∈ p.scheduled r' hbudget' ↔ x ∈ p.scheduled r hbudget) ↔ (Standing r id ↔ Standing r' id))) ∧
    (¬Standing r id → id ∉ p.scheduled r hbudget) := by
  have hsame : (Standing r id ↔ Standing r' id) →
      ∀ x, x ∈ p.scheduled r' hbudget' ↔ x ∈ p.scheduled r hbudget := by
    intro hstanding
    have hothers : ∀ x ∈ p.registry.entries.map (·.id), Standing r' x ↔ Standing r x := by
      intro x hx
      have hname : x ≠ name := fun heq => halias.notMem_ids (heq ▸ hx)
      by_cases hid : x = id
      · rw [hid]
        exact hstanding.symm
      · rcases hspelled with h | h
        · exact h.standing hname hid
        · exact h.standing hid hname
    have hpolicy : SamePolicy p r r' := fun x hx => Bool.eq_iff_iff.mpr (by
      rw [allows_iff, allows_iff]
      exact hothers x hx)
    have hform : ∃ deny allow, r' = withPolicy r deny allow := by
      rcases hspelled with ⟨deny, allow, -, -, heq⟩ | ⟨deny, allow, -, -, heq⟩ <;> exact ⟨deny, allow, heq⟩
    obtain ⟨deny, allow, rfl⟩ := hform
    intro x
    rw [scheduled_samePolicy hpolicy hbudget]
  refine ⟨hsame, fun hscheduled => ⟨fun hequal => ?_, hsame⟩, fun hnone hid => hnone (standing_of_scheduled hid)⟩
  rcases hscheduled with hid | hid
  · exact iff_of_true (standing_of_scheduled hid) (standing_of_scheduled ((hequal id).mpr hid))
  · exact iff_of_true (standing_of_scheduled ((hequal id).mp hid)) (standing_of_scheduled hid)

/-- The text of a page, with no rendering asked for. -/
def pageRequest : FetchRequest where
  target := "https://example.com/page"
  outputRequirements := ["clean_text"]

/-- Denied under both of its names, the browser's engine is denied under either. -/
theorem spelling_keeps_schedule_both :
    (∀ x, x ∈ webPlanner.scheduled (withPolicy pageRequest ["playwright", "playwright"] []) (by decide) ↔
      x ∈ webPlanner.scheduled (withPolicy pageRequest ["playwright", "playwright_render"] []) (by decide)) ∧
    "playwright" ∉ webPlanner.scheduled (withPolicy pageRequest ["playwright", "playwright_render"] []) (by decide) := by
  obtain ⟨hsame, -, hnone⟩ := spelling_keeps_schedule webPlanner
    (withPolicy pageRequest ["playwright", "playwright_render"] [])
    (withPolicy pageRequest ["playwright", "playwright"] []) (by decide) (by decide) "playwright_render" "playwright"
    ⟨{id := "playwright", aliases := ["playwright_render"], kind := .operation}, by decide, rfl, by decide⟩
    (.inl ⟨_, _, .inr rfl, .inl rfl, rfl⟩)
  exact ⟨hsame ⟨fun h => absurd h.1 (by decide), fun h => absurd h.1 (by decide)⟩, hnone fun h => absurd h.1 (by decide)⟩

/-- The engine is denied by its alias, and scheduled; denied by its id it is not. -/
theorem denied_alias_scheduled : webPlanner.registry.IsAlias "playwright_render" "playwright" ∧
    "playwright_render" ∈ (withPolicy pageRequest ["playwright_render"] []).denyCapabilities ∧
    "playwright" ∈ webPlanner.scheduled (withPolicy pageRequest ["playwright_render"] []) (by decide) ∧
    Respelled "playwright_render" "playwright" (withPolicy pageRequest ["playwright_render"] [])
      (withPolicy pageRequest ["playwright"] []) ∧
    "playwright" ∉ webPlanner.scheduled (withPolicy pageRequest ["playwright"] []) (by decide) := by
  refine ⟨⟨{id := "playwright", aliases := ["playwright_render"], kind := .operation}, by decide, rfl, by decide⟩,
    by decide, ?_, ⟨_, _, .inr rfl, .inl rfl, rfl⟩, ?_⟩
  · have hscheduled : webPlanner.scheduled (withPolicy pageRequest ["playwright_render"] []) (by decide) =
        ["url_normalisation", "url_validation", "http_get", "candidate_url_expansion", "clean_text", "playwright"] := by
      rfl
    rw [hscheduled]
    decide
  · intro h
    exact absurd (standing_of_scheduled h).1 (by decide)

end Planning

end Fetech
