import Fetech.Planning.Order
import Fetech.Executor.Outputs

/-! What becomes of the outputs a request names. -/
namespace Fetech.Planning
open Executor

/-- The requested capabilities that the planner scheduled in a group of outputs. -/
def requestedOutputs (plan : FetchPlan) : List String :=
  plan.request.outputRequirements.filter fun c => plan.nodes.any fun node => isOutput node && node.capabilityId == c

/-- Those of them that end with an APPLIED outcome and an artifact. -/
def deliveredOutputs (plan : FetchPlan) (r : FetchResult) : List String :=
  (requestedOutputs plan).filter (delivers r.capabilityOutcomes r.attempts r.artifacts)

/-- **All requested outputs are delivered**, whatever the order in which the branches
of a batch complete: in every run of a planned request in which every adapter succeeds
on its own, no batch collects an accepted branch while a sibling is pending, and no
output is skipped as a fallback. -/
theorem requested_outputs_delivered (p : Planner) (e : Engine) (request : FetchRequest)
    (hbudget : request.budget.Valid) (plan : FetchPlan) (hplan : p.plan request hbudget = .ok plan)
    (actions : List Action) (r : FetchResult)
    (hsucceeds : (machine e plan).Obeys (EverySucceeds e plan).rule (.initial plan) actions)
    (hkeeps : (machine e plan).Obeys (KeepsOutputs plan).rule (.initial plan) actions)
    (hreturns : execute e plan actions = some r) : deliveredOutputs plan r = requestedOutputs plan := by
  refine List.filter_eq_self.mpr fun c hc => ?_
  obtain ⟨node, hnode, hgroup⟩ := List.any_eq_true.mp (List.mem_filter.mp hc).2
  rw [Bool.and_eq_true, beq_iff_eq] at hgroup
  rw [← hgroup.2]
  exact outputs_supplied (plan_ordered hplan) hsucceeds hkeeps hreturns node hnode hgroup.1

/-- As much of the manifest as a request for media outputs reads. -/
def mediaPlanner : Planner where
  registry := {entries := [
    {id := "url_validation", kind := .policy}, {id := "url_normalisation", kind := .operation},
    {id := "http_get", kind := .operation}, {id := "playwright", aliases := ["playwright_render"], kind := .operation},
    {id := "video_metadata", kind := .extractor}, {id := "thumbnail", kind := .extractor}]}
  codecs := asciiCodecs
  sanitizeUrl target _ := target

/-- The metadata and the thumbnail of one film. -/
def mediaRequest : FetchRequest where
  target := "https://example.com/movie.mp4"
  outputRequirements := ["video_metadata", "thumbnail"]

def mediaPlan : FetchPlan where
  request := mediaRequest
  nodes := [
    {id := "normalize", capabilityId := "url_normalisation", adapter := "core"},
    {id := "policy", capabilityId := "url_validation", adapter := "core", dependencies := ["normalize"]
     reservedBudget := {("deadline_seconds", 2)}},
    {id := "http", capabilityId := "http_get", adapter := "http", dependencies := ["policy"], retry := {maximum := 2}
     stopOnAcceptance := true, reservedBudget := {("bytes", 10000000)}},
    {id := "media-0-video-metadata", capabilityId := "video_metadata", adapter := "media", dependencies := ["http"]
     parallelGroup := some "media-extractors", stopOnAcceptance := true
     reservedBudget := {("bytes", 10000000), ("decompressed_bytes", 50000000)}},
    {id := "media-1-thumbnail", capabilityId := "thumbnail", adapter := "media", dependencies := ["http"]
     parallelGroup := some "media-extractors", stopOnAcceptance := true
     reservedBudget := {("bytes", 10000000), ("decompressed_bytes", 50000000)}}]

theorem mediaPlanner_plan : mediaPlanner.plan mediaRequest (by decide) = .ok mediaPlan := by
  rfl

/-- A node whose adapter returns at once. -/
def plainNode : List Action := [.advance, .node .resume, .node .resume, .node .returns, .node .resume, .advance]

/-- The film is fetched and both extractors are at work. -/
def bothAtWork : List Action :=
  plainNode ++ plainNode ++ plainNode ++
    [.advance, .branch 0 .resume, .branch 0 .resume, .branch 1 .resume, .branch 1 .resume]

/-- An extractor returns with an accepted artifact. -/
def extracts (i : Nat) (capability : String) : List Action :=
  [.branch i (.op (.addAttempt {
      capabilityId := capability, status := .succeeded, finished := true, artifactIds := [i]})),
    .branch i (.op (.addArtifact {artifactId := i})), .branch i (.op (.setAccepted true)),
    .branch i .returns, .branch i .resume]

/-- Both have returned when the batch looks. -/
def bothFinish : List Action :=
  bothAtWork ++ extracts 0 "video_metadata" ++ extracts 1 "thumbnail" ++ [.collect, .join, .advance]

/-- The batch looks when only this one has returned: the other is cancelled. -/
def oneFinishes (i : Nat) (capability : String) : List Action :=
  bothAtWork ++ extracts i capability ++
    [.collect, .branch (1 - i) (.deliver false), .branch (1 - i) .interrupted, .branch (1 - i) .resume,
      .join, .advance]

theorem requested_outputs_delivered_media :
    ∃ r, execute sampleEngine mediaPlan bothFinish = some r ∧ deliveredOutputs mediaPlan r = requestedOutputs mediaPlan := by
  have hsome : (execute sampleEngine mediaPlan bothFinish).isSome = true := by decide +kernel
  obtain ⟨r, hr⟩ := Option.isSome_iff_exists.mp hsome
  exact ⟨r, hr, requested_outputs_delivered mediaPlanner sampleEngine mediaRequest (by decide) mediaPlan
    mediaPlanner_plan bothFinish r (by decide +kernel) (by decide +kernel) hr⟩

/-- Two orders of the same two adapters, both of which succeed on their own: whoever is
first cancels the other, so that each order delivers one of the two requested outputs. -/
theorem first_output_cancels_second :
    ∃ r r', mediaPlanner.plan mediaRequest (by decide) = .ok mediaPlan ∧
      execute sampleEngine mediaPlan (oneFinishes 0 "video_metadata") = some r ∧
      execute sampleEngine mediaPlan (oneFinishes 1 "thumbnail") = some r' ∧
      (machine sampleEngine mediaPlan).Obeys (EverySucceeds sampleEngine mediaPlan).rule (.initial mediaPlan)
        (oneFinishes 0 "video_metadata") ∧
      (machine sampleEngine mediaPlan).Obeys (EverySucceeds sampleEngine mediaPlan).rule (.initial mediaPlan)
        (oneFinishes 1 "thumbnail") ∧
      requestedOutputs mediaPlan = ["video_metadata", "thumbnail"] ∧
      deliveredOutputs mediaPlan r = ["video_metadata"] ∧ deliveredOutputs mediaPlan r' = ["thumbnail"] := by
  have hfirst : (execute sampleEngine mediaPlan (oneFinishes 0 "video_metadata")).map (deliveredOutputs mediaPlan) =
      some ["video_metadata"] := by decide +kernel
  have hsecond : (execute sampleEngine mediaPlan (oneFinishes 1 "thumbnail")).map (deliveredOutputs mediaPlan) =
      some ["thumbnail"] := by decide +kernel
  obtain ⟨r, hr, hdelivered⟩ := Option.map_eq_some_iff.mp hfirst
  obtain ⟨r', hr', hdelivered'⟩ := Option.map_eq_some_iff.mp hsecond
  exact ⟨r, r', mediaPlanner_plan, hr, hr', by decide +kernel, by decide +kernel, by decide +kernel, hdelivered,
    hdelivered'⟩

end Fetech.Planning
