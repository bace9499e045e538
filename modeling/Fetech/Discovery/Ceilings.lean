import Fetech.Discovery.Frontier

/-! What the fetches of a batch may read (`fetech/adapters/discovery.py`, `_fetch`).

Each of them gets its share of what is left of the wire and of the decompressed bytes, and one
byte at least: where less is left than there are fetches, and where nothing is, the batch is
issued all the same and may read more than the budget holds. -/
namespace Fetech.Discovery
open Lib Http

namespace Batch

/-- The requests of a batch. -/
def requests (batch : Batch) : List FetchRequest := batch.items.map (subrequest batch.context batch.items.length)

/-- The ceilings that the fetches of a batch are given, for the wire or decompressed. -/
def ceilings (batch : Batch) (f : IntField) : List Int := batch.requests.map (·.budget.int f)

/-- A batch keeps to what is left: nothing is fetched when nothing is, and the ceilings sum to no
more. -/
def KeepsBudget (batch : Batch) : Prop :=
  ∀ f ∈ [IntField.bytes, .decompressedBytes], (batch.items ≠ [] → 0 < batch.context.remainingBudget f) ∧
    (batch.ceilings f).sum ≤ batch.context.remainingBudget f

instance (batch : Batch) : Decidable batch.KeepsBudget :=
  inferInstanceAs (Decidable (∀ f ∈ [IntField.bytes, .decompressedBytes], (batch.items ≠ [] → 0 < _) ∧ _ ≤ _))

/-- There is a byte for every fetch. -/
def HasRoom (batch : Batch) : Prop :=
  ∀ f ∈ [IntField.bytes, .decompressedBytes], (batch.items.length : Int) ≤ batch.context.remainingBudget f

theorem ceilings_eq (batch : Batch) {f : IntField} (hf : f ∈ [IntField.bytes, .decompressedBytes]) :
    batch.ceilings f = List.replicate batch.items.length
      (share (batch.context.request.budget.int f) (batch.context.consumedBudget f) batch.items.length) := by
  rw [ceilings, requests, List.map_map, List.eq_replicate_iff]
  refine ⟨List.length_map _, fun ceiling hceiling => ?_⟩
  obtain ⟨item, -, rfl⟩ := List.mem_map.mp hceiling
  obtain rfl | rfl := List.mem_pair.mp hf
  · rfl
  · rfl

end Batch

/-- Shares of `n` come within what is left if that is `n` at least; each is one at least. -/
theorem mul_share_le_iff (budget consumed : Int) {n : Nat} (hn : 0 < n) :
    n * share budget consumed n ≤ max 0 (budget - consumed) ↔ (n : Int) ≤ max 0 (budget - consumed) := by
  have hone : 1 ≤ share budget consumed n := le_max_left _ _
  constructor
  · intro h
    have hsum : (n : Int) * 1 ≤ n * share budget consumed n := Int.mul_le_mul_of_nonneg_left hone (Int.natCast_nonneg n)
    omega
  · intro h
    have hleft : max 1 (budget - consumed) = max 0 (budget - consumed) := by omega
    have hsize : max 1 (n : Int) = n := by omega
    have hwhole : 1 ≤ max 0 (budget - consumed) / (n : Int) := by
      rw [Int.le_ediv_iff_mul_le (by omega)]
      omega
    rw [share, hleft, hsize, max_eq_right hwhole]
    exact Int.mul_ediv_self_le (by omega)

/-- A batch keeps to the budget exactly if there is a byte for every fetch. -/
theorem keepsBudget_iff (batch : Batch) : batch.KeepsBudget ↔ batch.HasRoom := by
  refine forall₂_congr fun f hf => ?_
  have hsum : (batch.ceilings f).sum = batch.items.length *
      share (batch.context.request.budget.int f) (batch.context.consumedBudget f) batch.items.length := by
    rw [batch.ceilings_eq hf, List.sum_replicate, nsmul_eq_mul]
  rw [hsum]
  cases hitems : batch.items with
  | nil => simp [ExecutionContext.remainingBudget]
  | cons item rest =>
    have hpos : 0 < (item :: rest).length := Nat.zero_lt_succ _
    refine Iff.trans ?_ (mul_share_le_iff (batch.context.request.budget.int f) (batch.context.consumedBudget f) hpos)
    refine ⟨fun h => h.2, fun h => ⟨fun _ => ?_, h⟩⟩
    have hroom := (mul_share_le_iff _ _ hpos).mp h
    show 0 < max 0 _
    omega

/-- The batches of a crawl. -/
def issuedBy : Option (Except HttpError Unit × Crawl) → List Batch
  | some (_, s) => s.issued
  | none => []

/-- **When the fetches of a crawl keep to the bytes that are left**: from any state, a batch of
any size does exactly if there is a byte for every fetch of it; and so every batch of a run does
exactly if there was for each of them. -/
theorem batches_keep_budget_iff (a : Crawler) (site : Site) (profile : Profile) (schedule : Schedule) (turns : Nat)
    (capabilityId : String) (context : ExecutionContext) :
    (∀ batch : Batch, batch.KeepsBudget ↔ batch.HasRoom) ∧
      let batches := issuedBy (execute a site profile schedule turns capabilityId context)
      (∀ batch ∈ batches, batch.KeepsBudget) ↔ ∀ batch ∈ batches, batch.HasRoom :=
  ⟨keepsBudget_iff, forall₂_congr fun batch _ => keepsBudget_iff batch⟩

/-- The context of a run whose root took all of the wire budget. -/
def spentContext : ExecutionContext :=
  {linkedPage {target := "http://example.org/", budget := {bytes := 1000}} with
    attempts := [{
      capabilityId := "http_get", status := .succeeded, finished := true, bytesReceived := 1000
      consumedBudget := {int := fun f => if f = .bytes then 1000 else 0}}]}

/-- The wire budget is spent, and the map of the site is fetched all the same. -/
theorem fetches_with_nothing_left : ¬ ∀ (a : Crawler) (site : Site) (profile : Profile) (schedule : Schedule) (turns : Nat)
    (capabilityId : String) (context : ExecutionContext),
    ∀ batch ∈ issuedBy (execute a site profile schedule turns capabilityId context), batch.KeepsBudget := by
  intro h
  have hkeeps := h linkedCrawler linkedSite {} .inOrder 20 "depth_limited_crawl" spentContext
  exact absurd hkeeps (by decide +kernel)

end Fetech.Discovery
