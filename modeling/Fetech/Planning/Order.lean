import Fetech.Planning

/-! Plans are in order: every dependency of a node is an earlier node.

`stage` reads off an id which stage of `plan` made the node. Dependencies point to
earlier stages, so filtering nodes away cannot bring a dependency behind its node; and
what validation finds in the plan is then before it. -/
namespace Fetech.Planning
open Lib.Except

/-! ### Stages -/

/-- The stage of `plan` that makes a node of this id. -/
def stageOf : List Char → Nat
  | 'n' :: _ => 0
  | 'p' :: _ => 1
  | 'a' :: 'u' :: 't' :: 'h' :: '-' :: 'c' :: _ => 5
  | 'a' :: 'u' :: 't' :: 'h' :: '-' :: 'f' :: _ => 6
  | 'a' :: 'u' :: _ => 2
  | 'c' :: 'a' :: 'c' :: 'h' :: 'e' :: '-' :: 'p' :: 'r' :: 'e' :: _ => 3
  | 'h' :: _ => 4
  | 'a' :: 'l' :: _ => 7
  | 'b' :: _ => 9
  | 'c' :: 'a' :: 'c' :: 'h' :: 'e' :: '-' :: 'p' :: 'r' :: 'o' :: 'd' :: 'u' :: 'c' :: 'e' :: 'r' :: '-' :: 'r' :: _ => 10
  | 'c' :: 'a' :: 'c' :: 'h' :: 'e' :: '-' :: 'p' :: 'r' :: 'o' :: 'd' :: 'u' :: 'c' :: 'e' :: 'r' :: '-' :: 'b' :: _ => 11
  | 'c' :: 'a' :: 'c' :: 'h' :: 'e' :: '-' :: 'p' :: 'o' :: _ => 12
  -- readers, documents, media, the archive, the structured source and the crawl
  | _ => 8

def stage (id : String) : Nat := stageOf id.toList

/-- Nodes of one stage, whose dependencies come from the stages before. -/
def AtStage (k : Nat) (nodes : List PlanNode) : Prop :=
  ∀ node ∈ nodes, stage node.id = k ∧ ∀ d ∈ node.dependencies, stage d < k

/-- Stages in order, up to `k`. -/
structure Staged (k : Nat) (nodes : List PlanNode) : Prop where
  rising : nodes.Pairwise fun a b => stage a.id ≤ stage b.id
  below : ∀ node ∈ nodes, stage node.id ≤ k
  backward : ∀ node ∈ nodes, ∀ d ∈ node.dependencies, stage d < stage node.id

theorem AtStage.staged {k : Nat} {nodes : List PlanNode} (h : AtStage k nodes) : Staged k nodes where
  rising := List.pairwise_of_forall_mem_list fun a ha b hb => by rw [(h a ha).1, (h b hb).1]
  below node hnode := (h node hnode).1.le
  backward node hnode d hd := by
    rw [(h node hnode).1]
    exact (h node hnode).2 d hd

theorem Staged.mono {j k : Nat} {nodes : List PlanNode} (h : Staged j nodes) (hjk : j ≤ k) : Staged k nodes :=
  ⟨h.rising, fun node hnode => (h.below node hnode).trans hjk, h.backward⟩

/-- The next stage goes behind the nodes so far. -/
theorem Staged.append {j k : Nat} {nodes more : List PlanNode} (h : Staged j nodes) (hmore : AtStage k more)
    (hjk : j ≤ k) : Staged k (nodes ++ more) where
  rising := by
    refine List.pairwise_append.mpr ⟨h.rising, hmore.staged.rising, fun a ha b hb => ?_⟩
    rw [(hmore b hb).1]
    exact (h.below a ha).trans hjk
  below node hnode := by
    rcases List.mem_append.mp hnode with hnode | hnode
    · exact (h.below node hnode).trans hjk
    · exact (hmore node hnode).1.le
  backward node hnode := by
    rcases List.mem_append.mp hnode with hnode | hnode
    · exact h.backward node hnode
    · exact hmore.staged.backward node hnode

theorem Staged.sublist {k : Nat} {nodes kept : List PlanNode} (h : Staged k nodes) (hsub : kept.Sublist nodes) :
    Staged k kept :=
  ⟨h.rising.sublist hsub, fun node hnode => h.below node (hsub.subset hnode),
    fun node hnode => h.backward node (hsub.subset hnode)⟩

/-- Staged nodes that depend on nothing outside the list are in order. -/
theorem Staged.ordered {k : Nat} {nodes : List PlanNode} (h : Staged k nodes)
    (hclosed : ∀ node ∈ nodes, ∀ d ∈ node.dependencies, d ∈ nodes.map (·.id)) : Ordered nodes := by
  rintro before node after rfl d hd
  have hmem := hclosed node (by simp) d hd
  have hlt := h.backward node (by simp) d hd
  rw [List.map_append, List.mem_append] at hmem
  rcases hmem with hmem | hmem
  · exact hmem
  -- a node from here on is of no earlier stage than the one that depends on it
  · obtain ⟨other, hother, rfl⟩ := List.mem_map.mp hmem
    have hle : stage node.id ≤ stage other.id := by
      rcases List.mem_cons.mp hother with rfl | hother
      · exact le_refl _
      · have hrising := (List.pairwise_append.mp h.rising).2.1
        exact (List.pairwise_cons.mp hrising).1 other hother
    omega

/-! ### The nodes of each stage -/

theorem stage_indexed {stem : String} {k : Nat} (h : ∀ rest : List Char, stageOf (stem.toList ++ rest) = k)
    (index : Nat) (capability : String) : stage (indexedId stem index capability) = k := by
  simp only [stage, indexedId, String.toList_append, List.append_assoc]
  exact h _

theorem chain_atStage {stem : String} {k : Nat} {node : String → String → Option String → PlanNode}
    (hstem : ∀ rest : List Char, stageOf (stem.toList ++ rest) = k)
    (hnode : ∀ id capability previous, (node id capability previous).id = id ∧
      ∀ d ∈ (node id capability previous).dependencies, stage d < k)
    (index : Nat) (previous : Option String) (capabilities : List String) :
    AtStage k (chain stem node index previous capabilities) := by
  induction capabilities generalizing index previous with
  | nil =>
    intro n hn
    cases hn
  | cons capability rest ih =>
    intro n hn
    rcases List.mem_cons.mp hn with rfl | hn
    · refine ⟨?_, (hnode _ _ _).2⟩
      rw [(hnode _ _ _).1]
      exact stage_indexed hstem _ _
    · exact ih _ _ n hn

theorem family_atStage {stem : String} {k : Nat} {node : String → String → PlanNode}
    (hstem : ∀ rest : List Char, stageOf (stem.toList ++ rest) = k)
    (hnode : ∀ id capability, (node id capability).id = id ∧ ∀ d ∈ (node id capability).dependencies, stage d < k)
    (capabilities : List String) : AtStage k (family stem node capabilities) := by
  intro n hn
  obtain ⟨index, hindex, rfl⟩ := List.mem_mapIdx.mp hn
  refine ⟨?_, (hnode _ _).2⟩
  rw [(hnode _ _).1]
  exact stage_indexed hstem _ _

/-- A stage with at most one node. -/
theorem atStage_singleton {k : Nat} {node : PlanNode} (id : String) (heq : node.id = id) (hid : stage id = k)
    (hdeps : ∀ d ∈ node.dependencies, stage d < k) : AtStage k [node] := by
  intro n hn
  cases List.mem_singleton.mp hn
  exact ⟨heq ▸ hid, hdeps⟩

theorem atStage_nil (k : Nat) : AtStage k [] := by
  intro n hn
  cases hn

/-- The id of the last node, or what stands before them all. -/
theorem stage_last_le {nodes : List PlanNode} {default : String} {k : Nat} (hnodes : ∀ n ∈ nodes, stage n.id ≤ k)
    (hdefault : stage default ≤ k) : stage ((nodes.getLast?.map (·.id)).getD default) ≤ k := by
  cases hlast : nodes.getLast? with
  | none => exact hdefault
  | some n => exact hnodes n (List.mem_of_getLast? hlast)

section
variable (d : Draft)

theorem baseNodes_staged : Staged 1 Draft.baseNodes :=
  have hfirst : AtStage 0 [{id := "normalize", capabilityId := "url_normalisation", adapter := "core"}] :=
    atStage_singleton "normalize" rfl (by decide) (by simp)
  hfirst.staged.append (atStage_singleton "policy" rfl (by decide) (by decide)) (by decide)

theorem sessionNodes_atStage : AtStage 2 d.sessionNodes := by
  intro n hn
  obtain ⟨capability, hmem, rfl⟩ := List.mem_map.mp hn
  have hsession := List.mem_of_mem_filter (List.mem_of_mem_take hmem)
  refine ⟨?_, by simp [stage, stageOf]⟩
  show stage ("auth-" ++ dashed capability) = 2
  simp only [authSessionCapabilities, List.mem_cons, List.not_mem_nil, or_false] at hsession
  rcases hsession with rfl | rfl | rfl | rfl <;> decide

theorem httpDependency_stage : stage d.httpDependency < 3 :=
  Nat.lt_succ_of_le (stage_last_le (fun n hn => (sessionNodes_atStage d n hn).1.le) (by decide))

theorem preCacheNodes_atStage (capabilities : List String) : AtStage 3 (d.preCacheNodes capabilities) :=
  chain_atStage (fun _ => rfl) (fun _ _ _ => ⟨rfl, by simpa using httpDependency_stage d⟩) _ _ _

theorem httpNode_atStage (preCache : List PlanNode) : AtStage 4 [d.httpNode preCache] := by
  refine atStage_singleton "http" rfl (by decide) fun x hx => ?_
  cases List.mem_singleton.mp hx
  exact (httpDependency_stage d).trans (by decide)

theorem csrfNodes_atStage : AtStage 5 d.csrfNodes := by
  unfold Draft.csrfNodes
  split
  · exact atStage_singleton "auth-csrf-token" rfl (by decide) (by decide)
  · exact atStage_nil 5

theorem csrfDependency_stage : stage d.csrfDependency ≤ 5 :=
  stage_last_le (fun n hn => (csrfNodes_atStage d n hn).1.le) (by decide)

theorem formNodes_atStage : AtStage 6 d.formNodes := by
  unfold Draft.formNodes
  split
  · refine atStage_singleton "auth-form-submit" rfl (by decide) fun x hx => ?_
    cases List.mem_singleton.mp hx
    exact Nat.lt_succ_of_le (csrfDependency_stage d)
  · exact atStage_nil 6

theorem acquiredDependency_stage : stage d.acquiredDependency ≤ 6 :=
  stage_last_le (fun n hn => (formNodes_atStage d n hn).1.le) ((csrfDependency_stage d).trans (by decide))

/-- Everything up to the acquisition of the target. -/
theorem acquired_staged (preCache : List PlanNode) (hpre : AtStage 3 preCache) :
    Staged 6 (Draft.baseNodes ++ d.sessionNodes ++ preCache ++ [d.httpNode preCache] ++ d.csrfNodes ++ d.formNodes) :=
  ((((baseNodes_staged.append (sessionNodes_atStage d) (by decide)).append hpre (by decide)).append
    (httpNode_atStage d preCache) (by decide)).append (csrfNodes_atStage d) (by decide)).append
      (formNodes_atStage d) (by decide)

theorem alternativesNodes_atStage : AtStage 7 d.alternativesNodes := by
  unfold Draft.alternativesNodes
  split
  · refine atStage_singleton "alternatives" rfl (by decide) fun x hx => ?_
    cases List.mem_singleton.mp hx
    exact Nat.lt_succ_of_le (acquiredDependency_stage d)
  · exact atStage_nil 7

theorem readerNodes_atStage {dependency : String} (h : stage dependency ≤ 7) :
    AtStage 8 (d.readerNodes dependency) :=
  chain_atStage (fun _ => rfl) (fun _ _ _ => ⟨rfl, by simpa using Nat.lt_succ_of_le h⟩) _ _ _

theorem webNodes_staged {nodes : List PlanNode} (h : Staged 6 nodes) (available : Bool) :
    Staged 9 (nodes ++ d.webNodes available) := by
  have halt := alternativesNodes_atStage d
  have hdep : stage ((d.alternativesNodes.getLast?.map (·.id)).getD d.acquiredDependency) ≤ 7 :=
    stage_last_le (fun n hn => (halt n hn).1.le) ((acquiredDependency_stage d).trans (by decide))
  have hreaders := readerNodes_atStage d hdep
  have hterminal := stage_last_le (fun n hn => (hreaders n hn).1.le) (by decide : stage "" ≤ 8)
  have hbrowser : AtStage 9 (if available then [d.browserNode (((d.readerNodes
      ((d.alternativesNodes.getLast?.map (·.id)).getD d.acquiredDependency)).getLast?.map (·.id)).getD "")] else []) := by
    split
    · refine atStage_singleton "browser" rfl (by decide) fun x hx => ?_
      cases List.mem_singleton.mp hx
      exact Nat.lt_succ_of_le hterminal
    · exact atStage_nil 9
  have hall := ((h.append halt (by decide)).append hreaders (by decide)).append hbrowser (by decide)
  simpa only [Draft.webNodes, List.append_assoc] using hall

/-- The family's nodes follow acquisition. -/
theorem mainNodes_staged {nodes main : List PlanNode} (h : Staged 6 nodes) {c : Codecs} {available : Option Bool}
    {suffix : String} (hmain : d.mainNodes c available suffix = .ok main) : Staged 9 (nodes ++ main) := by
  have hnone : Staged 9 (nodes ++ []) := by
    rw [List.append_nil]
    exact h.mono (by decide)
  have hone : ∀ more, AtStage 8 more → Staged 9 (nodes ++ more) := fun more hmore =>
    (h.append hmore (by decide)).mono (by decide)
  have hacquired : ∀ x ∈ [d.acquiredDependency], stage x < 8 := by
    intro x hx
    cases List.mem_singleton.mp hx
    exact Nat.lt_of_le_of_lt (acquiredDependency_stage d) (by decide)
  unfold Draft.mainNodes at hmain
  split at hmain
  · cases hmain
    exact hone _ (atStage_singleton "crawl" rfl (by decide) hacquired)
  split at hmain
  · split at hmain
    · cases hmain
      exact hnone
    · split at hmain
      · cases hmain
        exact webNodes_staged d h _
      · cases hmain
  · cases hmain
    exact hone _ (family_atStage (fun _ => rfl) (fun _ _ => ⟨rfl, hacquired⟩) _)
  · cases hmain
    exact hone _ (family_atStage (fun _ => rfl) (fun _ _ => ⟨rfl, hacquired⟩) _)
  · cases hmain
    exact hone _ (atStage_singleton "archive" rfl (by decide) hacquired)
  · cases hcap : d.apiCapability c suffix with
    | error err =>
      rw [hcap] at hmain
      cases hmain
    | ok capability =>
      rw [hcap] at hmain
      cases hmain
      exact hone _ (atStage_singleton "structured" rfl (by decide) hacquired)
  · cases hmain
    exact hnone

theorem terminalDependency_stage {nodes main : List PlanNode} (h : Staged 9 (nodes ++ main)) :
    stage (d.terminalDependency main) ≤ 9 :=
  stage_last_le (fun n hn => h.below n (List.mem_append_right _ hn)) ((acquiredDependency_stage d).trans (by decide))

/-- What `producer` finds is one of the nodes. -/
theorem stage_producer {k : Nat} {nodes : List PlanNode} (h : Staged k nodes) {adapter : String}
    {capabilities : List String} {node : PlanNode} (hfound : Draft.producer nodes adapter capabilities = some node) :
    stage node.id ≤ k :=
  h.below node (List.mem_reverse.mp (List.mem_of_find?_eq_some hfound))

theorem ragProducer_staged {p : Planner} {nodes main more : List PlanNode} {id : Option String}
    (h : Staged 9 nodes) (hterminal : stage (d.terminalDependency main) ≤ 9)
    (hrag : p.ragProducer d nodes main = .ok (id, more)) : Staged 10 (nodes ++ more) ∧ ∀ i ∈ id, stage i ≤ 10 := by
  have hnone : Staged 10 (nodes ++ []) := by
    rw [List.append_nil]
    exact h.mono (by decide)
  unfold Planner.ragProducer at hrag
  split at hrag
  · cases hrag
    exact ⟨hnone, by simp⟩
  simp only [bind_eq_ok, require_eq_ok] at hrag
  obtain ⟨_, _, _, _, hrag⟩ := hrag
  split at hrag
  · rename_i node hfound
    cases hrag
    refine ⟨hnone, fun i hi => ?_⟩
    cases hi
    exact (stage_producer h hfound).trans (by decide)
  · cases hrag
    refine ⟨h.append (atStage_singleton "cache-producer-rag-document" rfl (by decide) fun x hx => ?_) (by decide), ?_⟩
    · cases List.mem_singleton.mp hx
      split
      · exact Nat.lt_succ_of_le hterminal
      · exact Nat.lt_of_le_of_lt (acquiredDependency_stage d) (by decide)
    · intro i hi
      cases hi
      show stage "cache-producer-rag-document" ≤ 10
      decide

theorem browserProducer_staged {p : Planner} {nodes more : List PlanNode} {id : Option String}
    (h : Staged 10 nodes) (hbrowser : p.browserProducer d nodes = .ok (id, more)) :
    Staged 11 (nodes ++ more) ∧ ∀ i ∈ id, stage i ≤ 11 := by
  have hnone : Staged 11 (nodes ++ []) := by
    rw [List.append_nil]
    exact h.mono (by decide)
  unfold Planner.browserProducer at hbrowser
  split at hbrowser
  · cases hbrowser
    exact ⟨hnone, by simp⟩
  simp only [bind_eq_ok, require_eq_ok] at hbrowser
  obtain ⟨_, _, _, _, hbrowser⟩ := hbrowser
  split at hbrowser
  · rename_i node hfound
    cases hbrowser
    refine ⟨hnone, fun i hi => ?_⟩
    cases hi
    exact (stage_producer h hfound).trans (by decide)
  · simp only [bind_eq_ok, require_eq_ok] at hbrowser
    obtain ⟨_, _, _, _, hbrowser⟩ := hbrowser
    cases hbrowser
    refine ⟨h.append (atStage_singleton "cache-producer-browser-render" rfl (by decide) fun x hx => ?_) (by decide), ?_⟩
    · cases List.mem_singleton.mp hx
      exact Nat.lt_of_le_of_lt (acquiredDependency_stage d) (by decide)
    · intro i hi
      cases hi
      show stage "cache-producer-browser-render" ≤ 11
      decide

theorem postCacheDependency_stage {preCache main : List PlanNode} {rag browser : Option String}
    (hpre : AtStage 3 preCache) (hterminal : stage (d.terminalDependency main) ≤ 9) (hrag : ∀ i ∈ rag, stage i ≤ 10)
    (hbrowser : ∀ i ∈ browser, stage i ≤ 11) (capability : String) :
    stage (d.postCacheDependency preCache main rag browser capability) < 12 := by
  have hget : ∀ o : Option String, (∀ i ∈ o, stage i ≤ 11) → stage (o.getD (d.terminalDependency main)) < 12 := by
    intro o ho
    cases o with
    | none => exact Nat.lt_of_le_of_lt hterminal (by decide)
    | some i => exact Nat.lt_succ_of_le (ho i rfl)
  refine hget _ fun i hi => ?_
  split at hi
  · exact (hrag i hi).trans (by decide)
  split at hi
  · exact hbrowser i hi
  split at hi
  · obtain ⟨node, hnode, rfl⟩ := Option.map_eq_some_iff.mp hi
    have hmem : node ∈ preCache := by
      rcases Option.or_eq_some_iff.mp hnode with hfound | ⟨-, hfound⟩ <;> exact List.mem_of_find?_eq_some hfound
    exact (hpre node hmem).1.le.trans (by decide)
  · cases hi

theorem postCacheNodes_atStage {dependency : String → String} (h : ∀ capability, stage (dependency capability) < 12) :
    AtStage 12 (d.postCacheNodes dependency) :=
  family_atStage (fun _ => rfl) (fun _ capability => ⟨rfl, by simpa using h capability⟩) _

end

/-! ### The whole plan -/

theorem draftNodes_staged {p : Planner} {d : Draft} {nodes : List PlanNode} (h : p.draftNodes d = .ok nodes) :
    Staged 12 nodes := by
  unfold Planner.draftNodes at h
  simp only [bind_eq_ok, require_eq_ok, ofOption_eq_ok] at h
  obtain ⟨-, -, capabilities, -, suffix, -, main, hmain, ⟨ragId, rag⟩, hrag, ⟨browserId, browser⟩, hbrowser, h⟩ := h
  cases h
  have hpre := preCacheNodes_atStage d capabilities
  have hmainStaged := mainNodes_staged d (acquired_staged d _ hpre) hmain
  have hterminal := terminalDependency_stage d hmainStaged
  obtain ⟨hragStaged, hragId⟩ := ragProducer_staged d hmainStaged hterminal hrag
  obtain ⟨hbrowserStaged, hbrowserId⟩ := browserProducer_staged d hragStaged hbrowser
  have hdependency := postCacheDependency_stage d hpre hterminal hragId hbrowserId
  exact hbrowserStaged.append (postCacheNodes_atStage d hdependency) (by decide)

theorem filterPermitted_sublist {p : Planner} {request : FetchRequest} {α : Type} {capability : α → String}
    {list kept : List α} (h : p.filterPermitted request capability list = .ok kept) : kept.Sublist list := by
  induction list generalizing kept with
  | nil =>
    cases h
    exact .slnil
  | cons a rest ih =>
    simp only [Planner.filterPermitted, bind_eq_ok] at h
    obtain ⟨keep, -, tail, htail, h⟩ := h
    cases h
    split
    · exact (ih htail).cons_cons a
    · exact (ih htail).cons a

/-- What `_validate_nodes` accepts depends on nothing outside the plan. -/
theorem validateNodes_closed {p : Planner} {nodes rest : List PlanNode} {u : Unit}
    (h : p.validateNodes nodes rest = .ok u) : ∀ node ∈ rest, ∀ d ∈ node.dependencies, d ∈ nodes.map (·.id) := by
  induction rest with
  | nil =>
    intro node hnode
    cases hnode
  | cons first rest ih =>
    simp only [Planner.validateNodes, bind_eq_ok, require_eq_ok] at h
    obtain ⟨-, -, -, hmissing, hrest⟩ := h
    intro node hnode d hd
    rcases List.mem_cons.mp hnode with rfl | hnode
    · rw [List.isEmpty_iff, List.filter_eq_nil_iff] at hmissing
      simpa using hmissing d hd
    · exact ih hrest node hnode d hd

/-- What a plan that was returned went through. -/
theorem plan_eq_ok {p : Planner} {request : FetchRequest} {hbudget : request.budget.Valid} {plan : FetchPlan}
    (h : p.plan request hbudget = .ok plan) :
    ∃ d hd nodes, p.draft request = .ok ⟨d, hd⟩ ∧ p.draftNodes d = .ok nodes ∧
      p.filterPermitted d.request (·.capabilityId) nodes = .ok plan.nodes ∧
      plan.nodes.any (httpCapabilities.contains ·.capabilityId) = true ∧
      p.validateNodes plan.nodes plan.nodes = .ok () ∧
      p.validateRequestedSchedulableOutputs d plan.nodes = .ok () := by
  unfold Planner.plan at h
  simp only [bind_eq_ok, require_eq_ok] at h
  obtain ⟨⟨d, hd⟩, hdraft, nodes, hnodes, filtered, hfiltered, -, hhttp, _, hvalid, _, houtputs, hbind⟩ := h
  simp only [Planner.bind, bind_eq_ok, require_eq_ok, ofOption_eq_ok] at hbind
  obtain ⟨target, -, -, -, hplan⟩ := hbind
  cases hplan
  exact ⟨d, hd, nodes, hdraft, hnodes, hfiltered, hhttp, hvalid, houtputs⟩

/-- **A plan is in order.** -/
theorem plan_ordered {p : Planner} {request : FetchRequest} {hbudget : request.budget.Valid} {plan : FetchPlan}
    (h : p.plan request hbudget = .ok plan) : Ordered plan.nodes := by
  obtain ⟨d, -, nodes, -, hnodes, hfiltered, -, hvalid, -⟩ := plan_eq_ok h
  exact ((draftNodes_staged hnodes).sublist (filterPermitted_sublist hfiltered)).ordered (validateNodes_closed hvalid)

end Fetech.Planning
