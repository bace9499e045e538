import Fetech.Planning.Order
import Fetech.Executor.Parallel
import Mathlib.Logic.Relation

/-! The shape of every plan.

Nodes of different stages differ in the stage their id names, nodes of one stage in
their index. From the stage after the policy check on, every node depends on a node
that is not the normalization; so a path of dependencies goes down the stages until it
meets the policy check. -/
namespace Fetech.Planning
open Lib.Except Executor

/-! ### Ids -/

theorem dash_notMem_digits (n : Nat) : '-' ∉ Nat.toDigits 10 n := by
  intro h
  have hdigit := Nat.isDigit_of_mem_toDigits (by decide) (by decide) h
  revert hdigit
  decide

theorem takeWhile_digits (n : Nat) (rest : List Char) :
    (Nat.toDigits 10 n ++ '-' :: rest).takeWhile (· != '-') = Nat.toDigits 10 n := by
  rw [List.takeWhile_append_of_pos]
  · simp
  · intro ch hch
    have hne : ch ≠ '-' := fun heq => dash_notMem_digits n (heq ▸ hch)
    simpa using hne

theorem indexedId_toList (stem : String) (index : Nat) (capability : String) :
    (indexedId stem index capability).toList =
      stem.toList ++ (Nat.toDigits 10 index ++ '-' :: (dashed capability).toList) := by
  simp only [indexedId, Nat.toString_eq_repr, String.toList_append, Nat.toList_repr, List.append_assoc]
  rfl

/-- The index can be read off an id. -/
theorem indexedId_index {stem : String} {i j : Nat} {a b : String} (h : indexedId stem i a = indexedId stem j b) :
    i = j := by
  have hlist := congrArg String.toList h
  rw [indexedId_toList, indexedId_toList, List.append_cancel_left_eq] at hlist
  have hdigits := congrArg (List.takeWhile (· != '-')) hlist
  rw [takeWhile_digits, takeWhile_digits] at hdigits
  have hread := congrArg (Nat.ofDigitChars 10 · 0) hdigits
  simpa only [Nat.ofDigitChars_toDigits (by decide : 1 < 10) (by decide : 10 ≤ 10)] using hread

/-- The ids of a chain, and their indices. -/
theorem chain_ids {stem : String} {node : String → String → Option String → PlanNode}
    (index : Nat) (previous : Option String) (capabilities : List String) :
    ∀ n ∈ chain stem node index previous capabilities, ∃ i ≥ index, ∃ c ∈ capabilities, ∃ before,
      n = node (indexedId stem i c) c before := by
  induction capabilities generalizing index previous with
  | nil =>
    intro n hn
    cases hn
  | cons capability rest ih =>
    intro n hn
    rcases List.mem_cons.mp hn with rfl | hn
    · exact ⟨index, le_refl _, capability, List.mem_cons_self, previous, rfl⟩
    · obtain ⟨i, hi, c, hc, before, rfl⟩ := ih _ _ n hn
      exact ⟨i, Nat.le_of_succ_le hi, c, List.mem_cons_of_mem _ hc, before, rfl⟩

theorem chain_distinct {stem : String} {node : String → String → Option String → PlanNode}
    (hnode : ∀ id capability previous, (node id capability previous).id = id)
    (index : Nat) (previous : Option String) (capabilities : List String) :
    ((chain stem node index previous capabilities).map (·.id)).Nodup := by
  induction capabilities generalizing index previous with
  | nil => exact List.nodup_nil
  | cons capability rest ih =>
    refine List.nodup_cons.mpr ⟨fun hmem => ?_, ih _ _⟩
    obtain ⟨n, hn, hid⟩ := List.mem_map.mp hmem
    obtain ⟨i, hi, c, -, before, rfl⟩ := chain_ids _ _ _ n hn
    have hindex : i = index := indexedId_index (((hnode _ _ _).symm.trans hid).trans (hnode _ _ _))
    omega

theorem family_distinct {stem : String} {node : String → String → PlanNode}
    (hnode : ∀ id capability, (node id capability).id = id) (capabilities : List String) :
    ((family stem node capabilities).map (·.id)).Nodup := by
  refine List.pairwise_iff_getElem.mpr fun i j hi hj hij heq => ?_
  simp only [family, List.getElem_map, List.getElem_mapIdx, hnode] at heq
  exact hij.ne (indexedId_index heq)

/-! ### Stages with their nodes apart -/

/-- What `plan` puts into a node: a capability of HTTP acquisition goes to the HTTP
adapter, and one that changes state needs approval and is not retried. -/
structure Proper (node : PlanNode) : Prop where
  http : node.capabilityId ∈ httpCapabilities → node.adapter = "http"
  guarded : node.capabilityId ∈ ["http_post", "form_submit"] → node.requiresApproval = true ∧ node.retry.maximum = 0

/-- A capability that neither acquires over HTTP nor changes state. -/
def Plain (capability : String) : Prop := capability ∉ "form_submit" :: httpCapabilities

instance (capability : String) : Decidable (Plain capability) := inferInstanceAs (Decidable (_ ∉ _))

theorem Plain.proper {node : PlanNode} (h : Plain node.capabilityId) : Proper node where
  http hmem := absurd (List.mem_cons_of_mem _ hmem) h
  guarded hmem := by
    refine absurd ?_ h
    simp only [List.mem_cons, List.not_mem_nil, or_false] at hmem
    rcases hmem with heq | heq <;> rw [heq] <;> decide

/-- The nodes of a stage behind the policy check. -/
structure Added (nodes : List PlanNode) : Prop where
  distinct : (nodes.map (·.id)).Nodup
  rooted : ∀ node ∈ nodes, ∃ d ∈ node.dependencies, 1 ≤ stage d
  proper : ∀ node ∈ nodes, Proper node

/-- The nodes so far. -/
structure Built (nodes : List PlanNode) : Prop where
  distinct : (nodes.map (·.id)).Nodup
  base : ∀ node ∈ nodes, stage node.id ≤ 1 → node ∈ Draft.baseNodes
  rooted : ∀ node ∈ nodes, 2 ≤ stage node.id → ∃ d ∈ node.dependencies, 1 ≤ stage d
  proper : ∀ node ∈ nodes, Proper node

theorem Built.append {j k : Nat} {nodes more : List PlanNode} (h : Built nodes) (hnodes : Staged j nodes)
    (hmore : Added more) (hstage : AtStage k more) (hjk : j < k) (hk : 2 ≤ k) : Built (nodes ++ more) where
  distinct := by
    rw [List.map_append]
    refine h.distinct.append hmore.distinct fun id hid hid' => ?_
    obtain ⟨a, ha, rfl⟩ := List.mem_map.mp hid
    obtain ⟨b, hb, heq⟩ := List.mem_map.mp hid'
    have hbelow := hnodes.below a ha
    have hb' : stage b.id = k := (hstage b hb).1
    rw [heq] at hb'
    omega
  base node hnode hle := by
    rcases List.mem_append.mp hnode with hold | hnew
    · exact h.base node hold hle
    · have := (hstage node hnew).1
      omega
  rooted node hnode hle := by
    rcases List.mem_append.mp hnode with hold | hnew
    · exact h.rooted node hold hle
    · exact hmore.rooted node hnew
  proper node hnode := by
    rcases List.mem_append.mp hnode with hold | hnew
    · exact h.proper node hold
    · exact hmore.proper node hnew

theorem Built.sublist {nodes kept : List PlanNode} (h : Built nodes) (hsub : kept.Sublist nodes) : Built kept :=
  ⟨h.distinct.sublist (hsub.map _), fun node hnode => h.base node (hsub.subset hnode),
    fun node hnode => h.rooted node (hsub.subset hnode), fun node hnode => h.proper node (hsub.subset hnode)⟩

theorem added_nil : Added [] := ⟨List.nodup_nil, by simp, by simp⟩

theorem added_singleton {node : PlanNode} {dependency : String} (hdeps : node.dependencies = [dependency])
    (hdependency : 1 ≤ stage dependency) (hproper : Proper node) : Added [node] where
  distinct := List.nodup_singleton _
  rooted n hn := by
    cases List.mem_singleton.mp hn
    exact ⟨dependency, by simp [hdeps], hdependency⟩
  proper n hn := by
    cases List.mem_singleton.mp hn
    exact hproper

theorem chain_added {stem : String} {node : String → String → Option String → PlanNode} {dependency : String}
    (hid : ∀ id capability previous, (node id capability previous).id = id)
    (hdeps : ∀ id capability previous, (node id capability previous).dependencies = [dependency])
    (hcapability : ∀ id capability previous, (node id capability previous).capabilityId = capability)
    {capabilities : List String} (hplain : ∀ c ∈ capabilities, Plain c) (hdependency : 1 ≤ stage dependency)
    (index : Nat) (previous : Option String) : Added (chain stem node index previous capabilities) where
  distinct := chain_distinct hid _ _ _
  rooted n hn := by
    obtain ⟨i, -, c, -, before, rfl⟩ := chain_ids _ _ _ n hn
    exact ⟨dependency, by simp [hdeps], hdependency⟩
  proper n hn := by
    obtain ⟨i, -, c, hc, before, rfl⟩ := chain_ids _ _ _ n hn
    refine Plain.proper ?_
    rw [hcapability]
    exact hplain c hc

theorem family_added {stem : String} {node : String → String → PlanNode} {dependency : String → String}
    (hid : ∀ id capability, (node id capability).id = id)
    (hdeps : ∀ id capability, (node id capability).dependencies = [dependency capability])
    (hcapability : ∀ id capability, (node id capability).capabilityId = capability)
    {capabilities : List String} (hplain : ∀ c ∈ capabilities, Plain c)
    (hdependency : ∀ c, 1 ≤ stage (dependency c)) : Added (family stem node capabilities) where
  distinct := family_distinct hid _
  rooted n hn := by
    obtain ⟨i, hi, rfl⟩ := List.mem_mapIdx.mp hn
    exact ⟨_, by rw [hdeps]; exact List.mem_singleton_self _, hdependency _⟩
  proper n hn := by
    obtain ⟨i, hi, rfl⟩ := List.mem_mapIdx.mp hn
    refine Plain.proper ?_
    rw [hcapability]
    exact hplain _ (List.getElem_mem hi)

/-! ### The nodes of each stage -/

theorem le_stage_last {nodes : List PlanNode} {default : String} {k : Nat} (hnodes : ∀ n ∈ nodes, k ≤ stage n.id)
    (hdefault : k ≤ stage default) : k ≤ stage ((nodes.getLast?.map (·.id)).getD default) := by
  cases hlast : nodes.getLast? with
  | none => exact hdefault
  | some n => exact hnodes n (List.mem_of_getLast? hlast)

theorem AtStage.le {j k : Nat} {nodes : List PlanNode} (h : AtStage k nodes) (hjk : j ≤ k) :
    ∀ n ∈ nodes, j ≤ stage n.id := by
  intro n hn
  rw [(h n hn).1]
  exact hjk

theorem plain_of_filter {all : List String} (hall : ∀ c ∈ all, Plain c) (requested : String → Bool) :
    ∀ c ∈ all.filter requested, Plain c := fun c hc => hall c (List.mem_of_mem_filter hc)

section
variable (d : Draft)

theorem baseNodes_built : Built Draft.baseNodes where
  distinct := by decide
  base _ hnode _ := hnode
  rooted := by decide
  proper node hnode := by
    refine Plain.proper ?_
    simp only [Draft.baseNodes, List.mem_cons, List.not_mem_nil, or_false] at hnode
    rcases hnode with rfl | rfl <;> decide

theorem sessionNodes_added : Added d.sessionNodes := by
  have hplain : ∀ c ∈ d.requestedSessions, Plain c := plain_of_filter (by decide) _
  rcases hsessions : d.requestedSessions with _ | ⟨capability, rest⟩
  · simp only [Draft.sessionNodes, hsessions, List.take_nil, List.map_nil]
    exact added_nil
  · have hfirst := hplain capability (by simp [hsessions])
    simp only [Draft.sessionNodes, hsessions, List.take_succ_cons, List.take_zero, List.map_cons, List.map_nil]
    exact added_singleton rfl (by decide : 1 ≤ stage "policy") (Plain.proper hfirst)

theorem one_le_httpDependency : 1 ≤ stage d.httpDependency :=
  le_stage_last ((sessionNodes_atStage d).le (by decide)) (by decide)

theorem preCacheNodes_added {capabilities : List String} (hplain : ∀ c ∈ capabilities, Plain c) :
    Added (d.preCacheNodes capabilities) :=
  chain_added (fun _ _ _ => rfl) (fun _ _ _ => rfl) (fun _ _ _ => rfl) hplain (one_le_httpDependency d) _ _

/-- The HTTP node is guarded when its capability is to post. -/
theorem httpNode_added (preCache : List PlanNode) : Added [d.httpNode preCache] := by
  refine added_singleton rfl (one_le_httpDependency d) ⟨fun _ => rfl, fun hmem => ?_⟩
  have hpost : d.httpCapability = "http_post" := by
    rcases List.mem_cons.mp hmem with heq | hform
    · exact heq
    · have hne : d.httpCapability ≠ "form_submit" := by
        unfold Draft.httpCapability
        cases hfind : ["http_head", "http_post", "browser_header_http", "range_request"].find? d.requests with
        | none => decide
        | some capability =>
          have hknown := List.mem_of_find?_eq_some hfind
          rintro rfl
          revert hknown
          decide
      exact absurd (List.mem_singleton.mp hform) hne
  exact ⟨beq_iff_eq.mpr hpost, if_pos hpost⟩

theorem csrfNodes_added : Added d.csrfNodes := by
  unfold Draft.csrfNodes
  split
  · exact added_singleton rfl (by decide : 1 ≤ stage "http") (Plain.proper (by decide : Plain "csrf_token"))
  · exact added_nil

theorem one_le_csrfDependency : 1 ≤ stage d.csrfDependency :=
  le_stage_last ((csrfNodes_atStage d).le (by decide)) (by decide)

theorem formNodes_added : Added d.formNodes := by
  unfold Draft.formNodes
  split
  · refine added_singleton rfl (one_le_csrfDependency d) ⟨fun hmem => ?_, fun _ => ⟨rfl, rfl⟩⟩
    have hnot : "form_submit" ∉ httpCapabilities := by decide
    exact absurd hmem hnot
  · exact added_nil

theorem one_le_acquiredDependency : 1 ≤ stage d.acquiredDependency :=
  le_stage_last ((formNodes_atStage d).le (by decide)) (one_le_csrfDependency d)

theorem alternativesNodes_added : Added d.alternativesNodes := by
  unfold Draft.alternativesNodes
  split
  · exact added_singleton rfl (one_le_acquiredDependency d) (Plain.proper (by decide : Plain "candidate_url_expansion"))
  · exact added_nil

theorem readerNodes_added {dependency : String} (h : 1 ≤ stage dependency) : Added (d.readerNodes dependency) := by
  refine chain_added (fun _ _ _ => rfl) (fun _ _ _ => rfl) (fun _ _ _ => rfl) ?_ h _ _
  split
  · decide
  · exact plain_of_filter (by decide) _

theorem browserNode_proper (terminalReader : String) : Proper (d.browserNode terminalReader) := by
  refine Plain.proper ?_
  show Plain ((browserEngines.find? (browserCapabilities.filter d.requests).contains).getD "playwright")
  cases hfind : browserEngines.find? (browserCapabilities.filter d.requests).contains with
  | none => decide
  | some engine =>
    have hengines : ∀ c ∈ browserEngines, Plain c := by decide
    exact hengines engine (List.mem_of_find?_eq_some hfind)

theorem lookup_plain {known : List (String × String)} (hknown : ∀ entry ∈ known, Plain entry.2) (suffix : String)
    {default : String} (hdefault : Plain default) : Plain ((known.lookup suffix).getD default) := by
  cases hlookup : known.lookup suffix with
  | none => exact hdefault
  | some capability =>
    obtain ⟨before, after, rfl, -⟩ := List.lookup_eq_some_iff.mp hlookup
    exact hknown (suffix, capability) (by simp)

theorem documentCapabilities_plain (suffix : String) : ∀ c ∈ d.documentCapabilities suffix, Plain c := by
  have hrequested := plain_of_filter (by decide : ∀ c ∈ documentCapabilities, Plain c) fun capability =>
    d.requests capability && capability != "zip_archive"
  unfold Draft.documentCapabilities
  intro c hc
  dsimp only at hc
  split at hc
  · exact hrequested c hc
  · cases List.mem_singleton.mp hc
    exact lookup_plain (by decide) suffix (by decide)

theorem mediaCapabilities_plain (suffix : String) : ∀ c ∈ d.mediaCapabilities suffix, Plain c := by
  have hrequested := plain_of_filter (by decide : ∀ c ∈ mediaCapabilities, Plain c) d.requests
  unfold Draft.mediaCapabilities
  intro c hc
  dsimp only at hc
  split at hc
  · exact hrequested c hc
  split at hc
  · cases List.mem_singleton.mp hc
    decide
  split at hc
  · cases List.mem_singleton.mp hc
    decide
  · cases List.mem_singleton.mp hc
    decide

theorem apiCapability_plain {c : Codecs} {suffix capability : String}
    (h : d.apiCapability c suffix = .ok capability) : Plain capability := by
  unfold Draft.apiCapability at h
  split at h
  · cases h
    cases hnamed : detectNamedApi c d.target with
    | none =>
      simp only [Option.getD_none]
      split <;> decide
    | some api =>
      obtain ⟨route, hroute, rfl⟩ := Option.map_eq_some_iff.mp hnamed
      have hroutes : ∀ r ∈ namedApiRoutes, Plain r.1 := by decide
      exact hroutes route (List.mem_of_find?_eq_some hroute)
  · rename_i only honly
    cases h
    have hmem : capability ∈ apiCapabilityOrder.filter d.requests := by
      rw [honly]
      exact List.mem_singleton_self _
    exact plain_of_filter (by decide) _ capability hmem
  · cases h

/-- The family's nodes are the web's or of one stage. -/
theorem mainNodes_cases {main : List PlanNode} {c : Codecs} {available : Option Bool} {suffix : String}
    (hmain : d.mainNodes c available suffix = .ok main) :
    (∃ available, main = d.webNodes available) ∨ (AtStage 8 main ∧ Added main) := by
  have hacquired : ∀ x ∈ [d.acquiredDependency], stage x < 8 := by
    intro x hx
    cases List.mem_singleton.mp hx
    exact Nat.lt_of_le_of_lt (acquiredDependency_stage d) (by decide)
  have hone : ∀ node : PlanNode, node.dependencies = [d.acquiredDependency] → stage node.id = 8 →
      Plain node.capabilityId → AtStage 8 [node] ∧ Added [node] := fun node hdeps hid hplain =>
    ⟨atStage_singleton node.id rfl hid (hdeps ▸ hacquired),
      added_singleton hdeps (one_le_acquiredDependency d) hplain.proper⟩
  unfold Draft.mainNodes at hmain
  split at hmain
  · cases hmain
    exact .inr (hone _ rfl (by decide : stage "crawl" = 8) (by decide : Plain "depth_limited_crawl"))
  split at hmain
  · split at hmain
    · cases hmain
      exact .inr ⟨atStage_nil 8, added_nil⟩
    · split at hmain
      · cases hmain
        exact .inl ⟨_, rfl⟩
      · cases hmain
  · cases hmain
    exact .inr ⟨family_atStage (fun _ => rfl) (fun _ _ => ⟨rfl, hacquired⟩) _,
      family_added (fun _ _ => rfl) (fun _ _ => rfl) (fun _ _ => rfl) (documentCapabilities_plain d suffix)
        fun _ => one_le_acquiredDependency d⟩
  · cases hmain
    exact .inr ⟨family_atStage (fun _ => rfl) (fun _ _ => ⟨rfl, hacquired⟩) _,
      family_added (fun _ _ => rfl) (fun _ _ => rfl) (fun _ _ => rfl) (mediaCapabilities_plain d suffix)
        fun _ => one_le_acquiredDependency d⟩
  · cases hmain
    exact .inr (hone _ rfl (by decide : stage "archive" = 8) (by decide : Plain "zip_archive"))
  · cases hcap : d.apiCapability c suffix with
    | error err =>
      rw [hcap] at hmain
      cases hmain
    | ok capability =>
      rw [hcap] at hmain
      cases hmain
      exact .inr (hone _ rfl (by decide : stage "structured" = 8) (apiCapability_plain d hcap))
  · cases hmain
    exact .inr ⟨atStage_nil 8, added_nil⟩

theorem acquired_built {preCache : List PlanNode} (hstage : AtStage 3 preCache) (hpre : Added preCache) :
    Built (Draft.baseNodes ++ d.sessionNodes ++ preCache ++ [d.httpNode preCache] ++ d.csrfNodes ++ d.formNodes) := by
  have hsession := baseNodes_staged.append (sessionNodes_atStage d) (by decide)
  have hcache := hsession.append hstage (by decide)
  have hhttp := hcache.append (httpNode_atStage d preCache) (by decide)
  have hcsrf := hhttp.append (csrfNodes_atStage d) (by decide)
  exact ((((baseNodes_built.append baseNodes_staged (sessionNodes_added d) (sessionNodes_atStage d) (by decide)
    (by decide)).append hsession hpre hstage (by decide) (by decide)).append hcache (httpNode_added d preCache)
    (httpNode_atStage d preCache) (by decide) (by decide)).append hhttp (csrfNodes_added d) (csrfNodes_atStage d)
    (by decide) (by decide)).append hcsrf (formNodes_added d) (formNodes_atStage d) (by decide) (by decide)

/-- The web's nodes follow what acquired the target. -/
theorem webNodes_built {nodes : List PlanNode} (hstaged : Staged 6 nodes) (h : Built nodes) (available : Bool) :
    Built (nodes ++ d.webNodes available) ∧ ∀ n ∈ d.webNodes available, 1 ≤ stage n.id := by
  have halt := alternativesNodes_atStage d
  have hdep : stage ((d.alternativesNodes.getLast?.map (·.id)).getD d.acquiredDependency) ≤ 7 :=
    stage_last_le (fun n hn => (halt n hn).1.le) ((acquiredDependency_stage d).trans (by decide))
  have hdep' : 1 ≤ stage ((d.alternativesNodes.getLast?.map (·.id)).getD d.acquiredDependency) :=
    le_stage_last (halt.le (by decide)) (one_le_acquiredDependency d)
  have hreaders := readerNodes_atStage d hdep
  have hterminal := le_stage_last (hreaders.le (by decide)) (by decide : 1 ≤ stage "")
  have hterminal' := stage_last_le (fun n hn => (hreaders n hn).1.le) (by decide : stage "" ≤ 8)
  have hbrowser : AtStage 9 (if available then [d.browserNode (((d.readerNodes
        ((d.alternativesNodes.getLast?.map (·.id)).getD d.acquiredDependency)).getLast?.map (·.id)).getD "")] else []) ∧
      Added (if available then [d.browserNode (((d.readerNodes
        ((d.alternativesNodes.getLast?.map (·.id)).getD d.acquiredDependency)).getLast?.map (·.id)).getD "")] else []) := by
    split
    · refine ⟨atStage_singleton "browser" rfl (by decide) fun x hx => ?_,
        added_singleton rfl hterminal (browserNode_proper d _)⟩
      cases List.mem_singleton.mp hx
      exact Nat.lt_succ_of_le hterminal'
    · exact ⟨atStage_nil 9, added_nil⟩
  have haltStaged := hstaged.append halt (by decide)
  have hreadersStaged := haltStaged.append hreaders (by decide)
  have hall := ((h.append hstaged (alternativesNodes_added d) halt (by decide) (by decide)).append haltStaged
    (readerNodes_added d hdep') hreaders (by decide) (by decide)).append hreadersStaged hbrowser.2 hbrowser.1
      (by decide) (by decide)
  refine ⟨by simpa only [Draft.webNodes, List.append_assoc] using hall, fun n hn => ?_⟩
  simp only [Draft.webNodes, List.mem_append] at hn
  rcases hn with (hn | hn) | hn
  · exact halt.le (by decide) n hn
  · exact hreaders.le (by decide) n hn
  · exact hbrowser.1.le (by decide) n hn

theorem mainNodes_built {nodes main : List PlanNode} (hstaged : Staged 6 nodes) (h : Built nodes) {c : Codecs}
    {available : Option Bool} {suffix : String} (hmain : d.mainNodes c available suffix = .ok main) :
    Built (nodes ++ main) ∧ ∀ n ∈ main, 1 ≤ stage n.id := by
  rcases mainNodes_cases d hmain with ⟨_, rfl⟩ | ⟨hstage, hadded⟩
  · exact webNodes_built d hstaged h _
  · exact ⟨h.append hstaged hadded hstage (by decide) (by decide), hstage.le (by decide)⟩

/-- What `producer` finds is no base node. -/
theorem one_le_producer {nodes : List PlanNode} (h : Built nodes) {adapter : String} {capabilities : List String}
    {node : PlanNode} (hadapter : adapter ≠ "core")
    (hfound : Draft.producer nodes adapter capabilities = some node) : 1 ≤ stage node.id := by
  by_contra hlt
  have hmem := List.mem_reverse.mp (List.mem_of_find?_eq_some hfound)
  have hbase := h.base node hmem (by omega)
  have hfind := List.find?_some hfound
  rw [Bool.and_eq_true, beq_iff_eq] at hfind
  have hcore : ∀ n ∈ Draft.baseNodes, n.adapter = "core" := by decide
  exact hadapter (hfind.1.symm.trans (hcore node hbase))

theorem ragProducer_built {p : Planner} {nodes main more : List PlanNode} {id : Option String}
    (hstaged : Staged 9 nodes) (h : Built nodes) (hterminal : stage (d.terminalDependency main) ≤ 9)
    (hterminal' : 1 ≤ stage (d.terminalDependency main)) (hrag : p.ragProducer d nodes main = .ok (id, more)) :
    Built (nodes ++ more) ∧ ∀ i ∈ id, 1 ≤ stage i := by
  unfold Planner.ragProducer at hrag
  split at hrag
  · cases hrag
    exact ⟨by rwa [List.append_nil], by simp⟩
  simp only [bind_eq_ok, require_eq_ok] at hrag
  obtain ⟨_, _, _, _, hrag⟩ := hrag
  split at hrag
  · rename_i node hfound
    cases hrag
    refine ⟨by rwa [List.append_nil], fun i hi => ?_⟩
    cases hi
    exact one_le_producer h (by decide) hfound
  · cases hrag
    have hdependency : stage (if d.family = .document then d.terminalDependency main else d.acquiredDependency) ≤ 9 ∧
        1 ≤ stage (if d.family = .document then d.terminalDependency main else d.acquiredDependency) := by
      split
      · exact ⟨hterminal, hterminal'⟩
      · exact ⟨(acquiredDependency_stage d).trans (by decide), one_le_acquiredDependency d⟩
    refine ⟨h.append hstaged (added_singleton rfl hdependency.2 (Plain.proper (by decide : Plain "clean_text")))
      (atStage_singleton "cache-producer-rag-document" rfl (by decide) fun x hx => ?_) (by decide : 9 < 10)
      (by decide), ?_⟩
    · cases List.mem_singleton.mp hx
      exact Nat.lt_succ_of_le hdependency.1
    · intro i hi
      cases hi
      show 1 ≤ stage "cache-producer-rag-document"
      decide

theorem browserProducer_built {p : Planner} {nodes more : List PlanNode} {id : Option String}
    (hstaged : Staged 10 nodes) (h : Built nodes) (hbrowser : p.browserProducer d nodes = .ok (id, more)) :
    Built (nodes ++ more) ∧ ∀ i ∈ id, 1 ≤ stage i := by
  unfold Planner.browserProducer at hbrowser
  split at hbrowser
  · cases hbrowser
    exact ⟨by rwa [List.append_nil], by simp⟩
  simp only [bind_eq_ok, require_eq_ok] at hbrowser
  obtain ⟨_, _, _, _, hbrowser⟩ := hbrowser
  split at hbrowser
  · rename_i node hfound
    cases hbrowser
    refine ⟨by rwa [List.append_nil], fun i hi => ?_⟩
    cases hi
    exact one_le_producer h (by decide) hfound
  · simp only [bind_eq_ok, require_eq_ok] at hbrowser
    obtain ⟨_, _, _, _, hbrowser⟩ := hbrowser
    cases hbrowser
    refine ⟨h.append hstaged
      (added_singleton rfl (one_le_acquiredDependency d) (Plain.proper (by decide : Plain "playwright")))
      (atStage_singleton "cache-producer-browser-render" rfl (by decide) fun x hx => ?_) (by decide : 10 < 11)
      (by decide), ?_⟩
    · cases List.mem_singleton.mp hx
      exact Nat.lt_of_le_of_lt (acquiredDependency_stage d) (by decide)
    · intro i hi
      cases hi
      show 1 ≤ stage "cache-producer-browser-render"
      decide

theorem one_le_postCacheDependency {preCache main : List PlanNode} {rag browser : Option String}
    (hpre : AtStage 3 preCache) (hterminal : 1 ≤ stage (d.terminalDependency main)) (hrag : ∀ i ∈ rag, 1 ≤ stage i)
    (hbrowser : ∀ i ∈ browser, 1 ≤ stage i) (capability : String) :
    1 ≤ stage (d.postCacheDependency preCache main rag browser capability) := by
  have hget : ∀ o : Option String, (∀ i ∈ o, 1 ≤ stage i) → 1 ≤ stage (o.getD (d.terminalDependency main)) := by
    intro o ho
    cases o with
    | none => exact hterminal
    | some i => exact ho i rfl
  refine hget _ fun i hi => ?_
  split at hi
  · exact hrag i hi
  split at hi
  · exact hbrowser i hi
  split at hi
  · obtain ⟨node, hnode, rfl⟩ := Option.map_eq_some_iff.mp hi
    have hmem : node ∈ preCache := by
      rcases Option.or_eq_some_iff.mp hnode with hfound | ⟨-, hfound⟩ <;> exact List.mem_of_find?_eq_some hfound
    exact hpre.le (by decide) node hmem
  · cases hi

end

/-! ### The whole plan -/

theorem draftNodes_built {p : Planner} {d : Draft} {nodes : List PlanNode} (h : p.draftNodes d = .ok nodes) :
    Built nodes := by
  unfold Planner.draftNodes at h
  simp only [bind_eq_ok, require_eq_ok, ofOption_eq_ok] at h
  obtain ⟨-, -, capabilities, hcapabilities, suffix, -, main, hmain, ⟨ragId, rag⟩, hrag, ⟨browserId, browser⟩,
    hbrowser, h⟩ := h
  cases h
  have hpre := preCacheNodes_atStage d capabilities
  have hplain : ∀ c ∈ capabilities, Plain c := by
    intro c hc
    exact plain_of_filter (by decide : ∀ c ∈ preAcquisitionCacheCapabilities, Plain c) _ c
      ((filterPermitted_sublist hcapabilities).subset hc)
  have hacquired := acquired_staged d _ hpre
  have hmainStaged := mainNodes_staged d hacquired hmain
  obtain ⟨hmainBuilt, hmainStage⟩ :=
    mainNodes_built d hacquired (acquired_built d hpre (preCacheNodes_added d hplain)) hmain
  have hterminal := terminalDependency_stage d hmainStaged
  have hterminal' : 1 ≤ stage (d.terminalDependency main) := le_stage_last hmainStage (one_le_acquiredDependency d)
  obtain ⟨hragStaged, hragId⟩ := ragProducer_staged d hmainStaged hterminal hrag
  obtain ⟨hragBuilt, hragId'⟩ := ragProducer_built d hmainStaged hmainBuilt hterminal hterminal' hrag
  obtain ⟨hbrowserStaged, hbrowserId⟩ := browserProducer_staged d hragStaged hbrowser
  obtain ⟨hbrowserBuilt, hbrowserId'⟩ := browserProducer_built d hragStaged hragBuilt hbrowser
  have hdependency := postCacheDependency_stage d hpre hterminal hragId hbrowserId
  have hdependency' := one_le_postCacheDependency d hpre hterminal' hragId' hbrowserId'
  exact hbrowserBuilt.append hbrowserStaged
    (family_added (fun _ _ => rfl) (fun _ _ => rfl) (fun _ _ => rfl) (plain_of_filter (by decide) _) hdependency')
    (postCacheNodes_atStage d hdependency) (by decide) (by decide)

/-- What the capability policy keeps is permitted. -/
theorem filterPermitted_permitted {p : Planner} {request : FetchRequest} {α : Type} {capability : α → String}
    {list kept : List α} (h : p.filterPermitted request capability list = .ok kept) :
    ∀ a ∈ kept, p.permitted (capability a) request = .ok true := by
  induction list generalizing kept with
  | nil =>
    cases h
    simp
  | cons a rest ih =>
    simp only [Planner.filterPermitted, bind_eq_ok] at h
    obtain ⟨keep, hkeep, tail, htail, h⟩ := h
    cases h
    cases keep with
    | false => exact ih htail
    | true =>
      intro b hb
      rcases List.mem_cons.mp hb with rfl | hb
      · exact hkeep
      · exact ih htail b hb

theorem validateNodes_registered {p : Planner} {nodes rest : List PlanNode} {u : Unit}
    (h : p.validateNodes nodes rest = .ok u) : ∀ node ∈ rest, (p.registry.get node.capabilityId).isSome = true := by
  induction rest with
  | nil => simp
  | cons first rest ih =>
    simp only [Planner.validateNodes, bind_eq_ok, require_eq_ok] at h
    obtain ⟨-, hregistered, -, -, hrest⟩ := h
    intro node hnode
    rcases List.mem_cons.mp hnode with rfl | hnode
    · exact hregistered
    · exact ih hrest node hnode

/-- `draft` leaves the capability policy alone. -/
theorem draft_policy {p : Planner} {request : FetchRequest} {d : Draft} {hd : d.request.budget = request.budget}
    (h : p.draft request = .ok ⟨d, hd⟩) :
    d.request.allowCapabilities = request.allowCapabilities ∧ d.request.denyCapabilities = request.denyCapabilities := by
  simp only [Planner.draft, bind_eq_ok, ofOption_eq_ok] at h
  obtain ⟨target, -, family, -, h⟩ := h
  cases h
  exact ⟨rfl, rfl⟩

/-- The capability policy, spelled out. -/
theorem allows_iff {request : FetchRequest} {canonical : String} :
    Planner.allows request canonical = true ↔ canonical ∉ request.denyCapabilities ∧
      (request.allowCapabilities = [] ∨ canonical ∈ request.allowCapabilities ∨
        canonical ∈ "url_normalisation" :: "url_validation" :: httpCapabilities) := by
  simp only [Planner.allows, Bool.and_eq_true, Bool.not_eq_true', Bool.or_eq_true, List.isEmpty_iff,
    List.contains_eq_mem, decide_eq_false_iff_not, decide_eq_true_eq, or_assoc]

theorem permitted_iff {p : Planner} {capability : String} {request : FetchRequest} :
    p.permitted capability request = .ok true ↔
      ∃ canonical, p.registry.resolveId capability = some canonical ∧ Planner.allows request canonical = true := by
  unfold Planner.permitted
  cases p.registry.resolveId capability with
  | none => simp
  | some canonical => simp

/-- A node that names another among its dependencies. -/
def DependsOn (nodes : List PlanNode) (a b : String) : Prop := ∃ node ∈ nodes, node.id = a ∧ b ∈ node.dependencies

/-- Down the stages, a path of dependencies meets the policy check. -/
theorem Built.reaches_policy {nodes : List PlanNode} (h : Built nodes) {k : Nat} (hstaged : Staged k nodes)
    (hclosed : ∀ node ∈ nodes, ∀ d ∈ node.dependencies, d ∈ nodes.map (·.id)) (n : Nat) :
    ∀ node ∈ nodes, stage node.id = n → 2 ≤ n → Relation.TransGen (DependsOn nodes) node.id "policy" := by
  induction n using Nat.strong_induction_on with
  | _ n ih =>
    intro node hnode hstage hn
    obtain ⟨d, hd, hone⟩ := h.rooted node hnode (by omega)
    have hlt := hstaged.backward node hnode d hd
    obtain ⟨next, hnext, rfl⟩ := List.mem_map.mp (hclosed node hnode d hd)
    have hedge : DependsOn nodes node.id next.id := ⟨node, hnode, rfl, hd⟩
    by_cases hbase : stage next.id ≤ 1
    · have hpolicy : ∀ m ∈ Draft.baseNodes, 1 ≤ stage m.id → m.id = "policy" := by decide
      rw [hpolicy next (h.base next hnext hbase) hone] at hedge
      exact .single hedge
    · exact .head hedge (ih (stage next.id) (by omega) next hnext rfl (by omega))

/-- **The shape of every plan**: ids are distinct; every dependency is an earlier node,
so that no node is skipped for its position; every node but the first two is behind the
policy check; every capability is registered and permitted; the target is acquired over
HTTP; and what changes state needs approval and is not retried. -/
theorem plan_shape (p : Planner) (request : FetchRequest) (hbudget : request.budget.Valid) (plan : FetchPlan)
    (hplan : p.plan request hbudget = .ok plan) :
    (plan.nodes.map (·.id)).Nodup ∧
    (∀ before node after, plan.nodes = before ++ node :: after →
      (∀ d ∈ node.dependencies, d ∈ before.map (·.id)) ∧ ready (before.map (·.id)) node = true) ∧
    (∀ node ∈ plan.nodes, node.id ≠ "normalize" → node.id ≠ "policy" →
      Relation.TransGen (DependsOn plan.nodes) node.id "policy") ∧
    (∀ node ∈ plan.nodes, (p.registry.get node.capabilityId).isSome = true ∧
      ∃ canonical, p.registry.resolveId node.capabilityId = some canonical ∧ canonical ∉ request.denyCapabilities ∧
        (request.allowCapabilities = [] ∨ canonical ∈ request.allowCapabilities ∨
          canonical ∈ "url_normalisation" :: "url_validation" :: httpCapabilities)) ∧
    (∃ node ∈ plan.nodes, node.adapter = "http" ∧ node.capabilityId ∈ httpCapabilities) ∧
    (∀ node ∈ plan.nodes, node.capabilityId = "http_post" ∨ node.capabilityId = "form_submit" →
      node.requiresApproval = true ∧ node.retry.maximum = 0) := by
  obtain ⟨d, hd, nodes, hdraft, hnodes, hfiltered, hhttp, hvalid, -⟩ := plan_eq_ok hplan
  have hsub := filterPermitted_sublist hfiltered
  have hbuilt := (draftNodes_built hnodes).sublist hsub
  have hstaged := (draftNodes_staged hnodes).sublist hsub
  have hclosed := validateNodes_closed hvalid
  refine ⟨hbuilt.distinct, fun before node after hsplit => ?_, fun node hnode hfirst hsecond => ?_,
    fun node hnode => ⟨validateNodes_registered hvalid node hnode, ?_⟩, ?_, fun node hnode hguarded => ?_⟩
  · have hearlier := plan_ordered hplan before node after hsplit
    exact ⟨hearlier, List.all_eq_true.mpr fun x hx => List.contains_iff_mem.mpr (hearlier x hx)⟩
  · refine hbuilt.reaches_policy hstaged hclosed _ node hnode rfl ?_
    by_contra hlow
    have hbase := hbuilt.base node hnode (by omega)
    have hids : ∀ m ∈ Draft.baseNodes, m.id = "normalize" ∨ m.id = "policy" := by decide
    exact (hids node hbase).elim hfirst hsecond
  · obtain ⟨canonical, hcanonical, hallows⟩ := permitted_iff.mp (filterPermitted_permitted hfiltered node hnode)
    rw [allows_iff, (draft_policy hdraft).1, (draft_policy hdraft).2] at hallows
    exact ⟨canonical, hcanonical, hallows⟩
  · obtain ⟨node, hnode, hcapability⟩ := List.any_eq_true.mp hhttp
    rw [List.contains_iff_mem] at hcapability
    exact ⟨node, hnode, (hbuilt.proper node hnode).http hcapability, hcapability⟩
  · refine (hbuilt.proper node hnode).guarded ?_
    simpa only [List.mem_cons, List.not_mem_nil, or_false] using hguarded

/-- As much of the manifest as a request for a page reads. -/
def webPlanner : Planner where
  registry := {entries := [
    {id := "url_validation", kind := .policy}, {id := "url_normalisation", kind := .operation},
    {id := "http_get", kind := .operation}, {id := "form_submit", kind := .operation},
    {id := "candidate_url_expansion", kind := .variantGenerator}, {id := "clean_text", kind := .extractor},
    {id := "main_article", kind := .extractor},
    {id := "playwright", aliases := ["playwright_render"], kind := .operation}]}
  codecs := asciiCodecs
  sanitizeUrl target _ := target

/-- A form of a page, and the text of what it answers. -/
def formRequest : FetchRequest where
  target := "https://example.com/form"
  outputRequirements := ["form_submit", "clean_text"]

def formPlan : FetchPlan where
  request := formRequest
  nodes := [
    {id := "normalize", capabilityId := "url_normalisation", adapter := "core"},
    {id := "policy", capabilityId := "url_validation", adapter := "core", dependencies := ["normalize"]
     reservedBudget := {("deadline_seconds", 2)}},
    {id := "http", capabilityId := "http_get", adapter := "http", dependencies := ["policy"], retry := {maximum := 2}
     reservedBudget := {("bytes", 10000000)}},
    {id := "auth-form-submit", capabilityId := "form_submit", adapter := "auth", dependencies := ["http"]
     retry := {maximum := 0}, requiresApproval := true},
    {id := "alternatives", capabilityId := "candidate_url_expansion", adapter := "variants"
     dependencies := ["auth-form-submit"]},
    {id := "reader-0-clean-text", capabilityId := "clean_text", adapter := "reader", dependencies := ["alternatives"]
     parallelGroup := some "static-readers", stopOnAcceptance := true},
    {id := "browser", capabilityId := "playwright", adapter := "browser", dependencies := ["reader-0-clean-text"]
     fallbackFor := some "reader-0-clean-text", stopOnAcceptance := true, reservedBudget := {("browser_seconds", 20)}}]

theorem plan_shape_form : webPlanner.plan formRequest (by decide) = .ok formPlan ∧
    (formPlan.nodes.map (·.id)).Nodup ∧
    (∀ node ∈ formPlan.nodes, node.id ≠ "normalize" → node.id ≠ "policy" →
      Relation.TransGen (DependsOn formPlan.nodes) node.id "policy") := by
  have hplan : webPlanner.plan formRequest (by decide) = .ok formPlan := by rfl
  obtain ⟨hdistinct, -, hpolicy, -⟩ := plan_shape webPlanner formRequest (by decide) formPlan hplan
  exact ⟨hplan, hdistinct, hpolicy⟩

end Fetech.Planning
