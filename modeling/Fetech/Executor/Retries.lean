import Mathlib.Data.List.Infix
import Fetech.Executor

/-! The retries of a node (`_with_retries` and `_adapter_retry_code` in `fetech/executor.py`).

`Task` takes the retry code of an error as given. Here the operation is any awaitable, an
exception is an object with the exceptions behind it, and its code is looked for along that
chain. A search that follows a chain for ever gives `none`. -/
namespace Fetech.Executor
open Lib.Url

/-! ### Exceptions -/

/-- The classes that are asked for with `isinstance` or in an `except` clause. -/
inductive ExceptionClass where
  | timeoutError
  | connectionError
  | adapterExecutionError
  | adapterAuthRequiredError
  | adapterBudgetExceededError
  | adapterNotFoundError
  deriving DecidableEq

/-- The value of an attribute, as far as it is looked at; `other` also stands for a missing one. -/
inductive Attribute where
  | text (s : String)
  | int (n : Int)
  | other
  deriving DecidableEq

/-- An exception, with references to the exceptions behind it. -/
structure ExceptionObject (ρ : Type) where
  /-- Which of the classes it is an instance of. -/
  classes : List ExceptionClass
  typeName : String
  /-- `str(error)` -/
  message : String := ""
  code : Attribute := .other
  /-- `error.response.status_code`; a `bool` is `other`. -/
  statusCode : Attribute := .other
  truthy : Bool := true
  cause : Option ρ := none
  context : Option ρ := none

variable {σ ρ : Type}

namespace ExceptionObject

def isinstance (x : ExceptionObject ρ) (cls : ExceptionClass) : Bool := x.classes.contains cls

/-- The `except` clause that comes before the one for `AdapterExecutionError`. -/
def isExcluded (x : ExceptionObject ρ) : Bool :=
  x.isinstance .adapterAuthRequiredError || x.isinstance .adapterBudgetExceededError ||
    x.isinstance .adapterNotFoundError

end ExceptionObject

/-- The exceptions there are. -/
abbrev Heap (ρ : Type) := ρ → ExceptionObject ρ

/-- `current.__cause__ or current.__context__` -/
def Heap.next (heap : Heap ρ) (x : ρ) : Option ρ :=
  match (heap x).cause with
  | some cause => if (heap cause).truthy then some cause else (heap x).context
  | none => (heap x).context

/-! ### The code of an error -/

def statusText (c : Codecs) (a b d : Char) (after : List Char) : Bool :=
  (a == '4' || a == '5') && c.isDecimal b && c.isDecimal d && !after.head?.any c.isDecimal

/-- `re.search(r"(?<!\d)([45]\d{2})(?!\d)", message)`, from the character after `before` on. -/
def searchStatus (c : Codecs) : Option Char → List Char → Option (List Char)
  | before, a :: b :: d :: rest =>
    if !before.any c.isDecimal && statusText c a b d rest then some [a, b, d]
    else searchStatus c (some a) (b :: d :: rest)
  | _, _ => none

/-- What one exception of the chain says. -/
def ownRetryCode (c : Codecs) (x : ExceptionObject ρ) : Option String :=
  if x.isinstance .timeoutError then some "timeout"
  else if x.isinstance .connectionError then some "connection"
  else match x.statusCode with
    | .int n => some (toString n)
    | _ =>
      let typeName := c.casefold x.typeName.toList
      if "timeout".toList <:+: typeName then some "timeout"
      else if "connect".toList <:+: typeName ∨ "network".toList <:+: typeName then some "connection"
      else none

/-- The loop over the chain, for so many turns. -/
def searchChain (c : Codecs) (heap : Heap ρ) : Nat → Option ρ → Option (Option String)
  | _, none => some none
  | 0, some _ => none
  | n + 1, some x =>
    match ownRetryCode c (heap x) with
    | some code => some (some code)
    | none => searchChain c heap n (heap.next x)

/-- What the message of the error says. -/
def messageRetryCode (c : Codecs) (x : ExceptionObject ρ) : Option String :=
  let message := c.casefold x.message.toList
  if "timeout".toList <:+: message ∨ "timed out".toList <:+: message then some "timeout"
  else if "connection".toList <:+: message ∨ "connect failed".toList <:+: message then some "connection"
  else (searchStatus c none message).map String.ofList

/-- `_adapter_retry_code`. -/
def adapterRetryCode (c : Codecs) (heap : Heap ρ) (fuel : Nat) (error : ρ) : Option (Option String) :=
  let searched := (searchChain c heap fuel (some error)).map fun found => found.or (messageRetryCode c (heap error))
  match (heap error).code with
  | .text explicit =>
    if strip explicit.toList ≠ [] then some (some (String.ofList (c.casefold explicit.toList))) else searched
  | _ => searched

/-! ### The loop -/

/-- What surrounds the loop. An awaitable that returns has no exception. -/
structure Surroundings (σ ρ : Type) where
  context : σ → ExecutionContext
  heap : σ → Heap ρ
  /-- `await operation(node, context)` -/
  operation : σ → Option ρ × σ
  /-- `await asyncio.sleep(seconds)` -/
  sleep : ℚ → σ → Option ρ × σ

/-- A call of the operation. -/
structure Invocation (σ ρ : Type) where
  before : σ
  outcome : Option ρ
  after : σ

inductive Ending (ρ : Type) where
  | returned
  /-- An exception of the operation. -/
  | raised (x : ρ)
  /-- `BudgetExhaustedError` -/
  | exhausted (message : String)
  /-- What interrupts the backoff. -/
  | interrupted (x : ρ)
  deriving DecidableEq

structure Retried (σ ρ : Type) where
  ending : Ending ρ
  invocations : List (Invocation σ ρ)
  state : σ

variable (e : Engine) (w : Surroundings σ ρ) (retry : RetryRule) (fuel : Nat)

/-- `len(context.attempts) >= context.request.budget.attempts` -/
def Surroundings.usedUp (s : σ) : Bool :=
  (w.context s).request.budget.attempts ≤ (w.context s).attempts.length

def Surroundings.call (s : σ) : Invocation σ ρ := ⟨s, (w.operation s).1, (w.operation s).2⟩

/-- The pause before the next turn. -/
def Surroundings.pause (s : σ) : Option ρ × σ :=
  if 0 < retry.backoffSeconds then w.sleep retry.backoffSeconds s else (none, s)

/-- The turns of the loop for what `range` still gives, after the last error. -/
def retryFrom : List Nat → Option ρ → σ → Option (Retried σ ρ)
  | [], error, s => some ⟨error.elim .returned .raised, [], s⟩
  | retryIndex :: indices, _, s =>
    if w.usedUp s then some ⟨.exhausted "attempt budget exhausted", [], s⟩
    else
      let call := w.call s
      match call.outcome with
      | none => some ⟨.returned, [call], call.after⟩
      | some x =>
        let heap := w.heap call.after
        if (heap x).isExcluded || !(heap x).isinstance .adapterExecutionError then some ⟨.raised x, [call], call.after⟩
        else do
          let retryCode ← adapterRetryCode e.codecs heap fuel x
          if retry.maximum ≤ retryIndex || !retryCode.any (retryCodeAllowed e · retry.retryableCodes) then
            return ⟨.raised x, [call], call.after⟩
          match w.pause retry call.after with
          | (some y, t) => return ⟨.interrupted y, [call], t⟩
          | (none, t) =>
            let rest ← retryFrom indices (some x) t
            return {rest with invocations := call :: rest.invocations}

/-- `_with_retries`; `none` is a search for a code that takes more than `fuel` turns. -/
def withRetries (s : σ) : Option (Retried σ ρ) := retryFrom e w retry fuel (List.range (retry.maximum + 1)) none s

/-! ### The search ends -/

/-- The chain behind an exception has an end. -/
def Heap.FiniteChain (heap : Heap ρ) (x : ρ) : Prop := ∃ n, (Option.bind · heap.next)^[n] (some x) = none

/-- As many turns as the chain is long are enough, and more make no difference. -/
theorem searchChain_ends {c : Codecs} {heap : Heap ρ} {n : Nat} {current : Option ρ}
    (h : (Option.bind · heap.next)^[n] current = none) : ∃ found, ∀ fuel ≥ n, searchChain c heap fuel current = some found := by
  induction n generalizing current with
  | zero =>
    refine ⟨none, fun fuel _ => ?_⟩
    rw [show current = none from h]
    exact searchChain.eq_1 ..
  | succ n ih =>
    cases current with
    | none => exact ⟨none, fun fuel _ => searchChain.eq_1 ..⟩
    | some x =>
      cases hcode : ownRetryCode c (heap x) with
      | some code =>
        refine ⟨some code, fun fuel hfuel => ?_⟩
        obtain ⟨k, rfl⟩ := Nat.exists_eq_add_of_le' hfuel
        rw [← Nat.add_assoc, searchChain, hcode]
      | none =>
        obtain ⟨found, hfound⟩ := ih h
        refine ⟨found, fun fuel hfuel => ?_⟩
        obtain ⟨k, rfl⟩ := Nat.exists_eq_add_of_le' hfuel
        rw [← Nat.add_assoc, searchChain, hcode]
        exact hfound (k + n) (Nat.le_add_left n k)

/-- **The search for a code ends** on a chain that does. -/
theorem adapterRetryCode_ends {c : Codecs} {heap : Heap ρ} {x : ρ} (h : heap.FiniteChain x) :
    ∃ n code, ∀ fuel ≥ n, adapterRetryCode c heap fuel x = some code := by
  obtain ⟨n, hn⟩ := h
  obtain ⟨found, hfound⟩ := searchChain_ends (c := c) hn
  have hsearched : ∀ fuel ≥ n, (searchChain c heap fuel (some x)).map (fun found => found.or (messageRetryCode c (heap x))) =
      some (found.or (messageRetryCode c (heap x))) := by
    intro fuel hfuel
    rw [hfound fuel hfuel]
    rfl
  unfold adapterRetryCode
  split
  · split
    · exact ⟨n, _, fun fuel _ => rfl⟩
    · exact ⟨n, _, hsearched⟩
  · exact ⟨n, _, hsearched⟩

/-! ### What the loop keeps to -/

/-- After this call the operation may be called again. -/
def Repeatable (call : Invocation σ ρ) : Prop :=
  ∃ x code, call.outcome = some x ∧ (w.heap call.after x).isinstance .adapterExecutionError = true ∧
    (w.heap call.after x).isExcluded = false ∧
    adapterRetryCode e.codecs (w.heap call.after) fuel x = some (some code) ∧
    retryCodeAllowed e code retry.retryableCodes = true

/-- How the loop ends after these calls. -/
def EndsProperly (run : Retried σ ρ) : Prop :=
  match run.ending with
  | .returned => ∃ call, run.invocations.getLast? = some call ∧ call.outcome = none
  | .raised x => ∃ call, run.invocations.getLast? = some call ∧ call.outcome = some x
  | .exhausted message => message = "attempt budget exhausted" ∧ w.usedUp run.state = true ∧
      ∀ call, run.invocations.getLast? = some call → Repeatable e w retry fuel call
  | .interrupted y => ∃ call, run.invocations.getLast? = some call ∧ Repeatable e w retry fuel call ∧
      w.pause retry call.after = (some y, run.state)

/-- The rule, for at most so many calls. -/
structure KeepsRule (limit : Nat) (run : Retried σ ρ) : Prop where
  count : run.invocations.length ≤ limit
  budget : ∀ call ∈ run.invocations, w.usedUp call.before = false
  actual : ∀ call ∈ run.invocations, call = w.call call.before
  repeats : ∀ earlier call later, run.invocations = earlier ++ call :: later → later ≠ [] → Repeatable e w retry fuel call
  ending : EndsProperly e w retry fuel run

variable {e w retry fuel}

theorem KeepsRule.stopped {limit : Nat} {run : Retried σ ρ} (hcalls : run.invocations = [])
    (hending : EndsProperly e w retry fuel run) : KeepsRule e w retry fuel limit run where
  count := by
    rw [hcalls]
    exact Nat.zero_le _
  budget call hcall := absurd (hcalls ▸ hcall) List.not_mem_nil
  actual call hcall := absurd (hcalls ▸ hcall) List.not_mem_nil
  repeats earlier call later h := by
    rw [hcalls] at h
    exact absurd h.symm (List.append_ne_nil_of_right_ne_nil _ (List.cons_ne_nil _ _))
  ending := hending

/-- The loop is left with this call. -/
theorem KeepsRule.last {limit : Nat} {run : Retried σ ρ} {s : σ} (hs : w.usedUp s = false)
    (hcalls : run.invocations = [w.call s]) (hending : EndsProperly e w retry fuel run) :
    KeepsRule e w retry fuel (limit + 1) run where
  count := by
    rw [hcalls]
    exact Nat.le_add_left 1 limit
  budget call hcall := by
    rw [hcalls, List.mem_singleton] at hcall
    rw [hcall]
    exact hs
  actual call hcall := by
    rw [hcalls, List.mem_singleton] at hcall
    rw [hcall]
    rfl
  repeats earlier call later h hne := by
    rw [hcalls, List.singleton_eq_append_iff] at h
    obtain ⟨-, h⟩ | ⟨-, h⟩ := h
    · exact absurd (List.cons.inj h).2 hne
    · exact absurd h (List.cons_ne_nil _ _)
  ending := hending

/-- A call that may be repeated, before a run that keeps the rule. -/
theorem KeepsRule.cons {limit : Nat} {run : Retried σ ρ} {s : σ} (hs : w.usedUp s = false)
    (hcall : Repeatable e w retry fuel (w.call s)) (h : KeepsRule e w retry fuel limit run)
    (hrun : run.invocations = [] → ∃ message, run.ending = .exhausted message) :
    KeepsRule e w retry fuel (limit + 1) {run with invocations := w.call s :: run.invocations} where
  count := Nat.succ_le_succ h.count
  budget := List.forall_mem_cons.mpr ⟨hs, h.budget⟩
  actual := List.forall_mem_cons.mpr ⟨rfl, h.actual⟩
  repeats earlier call later heq hne := by
    cases earlier with
    | nil =>
      rw [← (List.cons.inj heq).1]
      exact hcall
    | cons first earlier => exact h.repeats earlier call later (List.cons.inj heq).2 hne
  ending := by
    have hending := h.ending
    cases hcalls : run.invocations with
    | nil =>
      obtain ⟨message, hmessage⟩ := hrun hcalls
      unfold EndsProperly at hending ⊢
      simp only [hmessage] at hending ⊢
      refine ⟨hending.1, hending.2.1, fun call hlast => ?_⟩
      rw [List.getLast?_singleton] at hlast
      cases hlast
      exact hcall
    | cons first rest =>
      have hlast : (w.call s :: run.invocations).getLast? = run.invocations.getLast? := by
        rw [hcalls, List.getLast?_cons_cons]
      unfold EndsProperly at hending ⊢
      rw [hcalls] at hlast hending
      simp only [hlast]
      exact hending

variable (e w retry fuel) in
/-- What one turn of the loop can do. -/
inductive Turn (retryIndex : Nat) (indices : List Nat) (s : σ) (run : Retried σ ρ) : Prop where
  | exhausted (hs : w.usedUp s = true) (hrun : run = ⟨.exhausted "attempt budget exhausted", [], s⟩)
  | returned (hs : w.usedUp s = false) (hcall : (w.call s).outcome = none)
      (hrun : run = ⟨.returned, [w.call s], (w.call s).after⟩)
  | raised (x : ρ) (hs : w.usedUp s = false) (hcall : (w.call s).outcome = some x)
      (hrun : run = ⟨.raised x, [w.call s], (w.call s).after⟩)
  | interrupted (y : ρ) (t : σ) (hs : w.usedUp s = false) (hcall : Repeatable e w retry fuel (w.call s))
      (hpause : w.pause retry (w.call s).after = (some y, t)) (hrun : run = ⟨.interrupted y, [w.call s], t⟩)
  | again (x : ρ) (t : σ) (rest : Retried σ ρ) (hs : w.usedUp s = false) (hindex : retryIndex < retry.maximum)
      (hcall : Repeatable e w retry fuel (w.call s)) (hrest : retryFrom e w retry fuel indices (some x) t = some rest)
      (hrun : run = {rest with invocations := w.call s :: rest.invocations})

theorem turn_of_retryFrom {retryIndex : Nat} {indices : List Nat} {error : Option ρ} {s : σ} {run : Retried σ ρ}
    (h : retryFrom e w retry fuel (retryIndex :: indices) error s = some run) :
    Turn e w retry fuel retryIndex indices s run := by
  unfold retryFrom at h
  split at h
  · rename_i hs
    exact .exhausted hs (Option.some.inj h).symm
  · rename_i hs
    have hs := Bool.eq_false_of_not_eq_true hs
    dsimp only at h
    split at h
    · rename_i hcall
      exact .returned hs hcall (Option.some.inj h).symm
    · rename_i x hcall
      split at h
      · exact .raised x hs hcall (Option.some.inj h).symm
      · rename_i hclass
        obtain ⟨retryCode, hcode, h⟩ := Option.bind_eq_some_iff.mp h
        split at h
        · exact .raised x hs hcall (Option.some.inj h).symm
        · rename_i hallowed
          simp only [Bool.or_eq_true, decide_eq_true_eq, Bool.not_eq_true', not_or, Nat.not_le, Bool.not_eq_true,
            Bool.not_eq_false] at hclass hallowed
          obtain ⟨code, hretryCode, hcodeAllowed⟩ := (Option.any_eq_true ..).mp hallowed.2
          subst hretryCode
          have hrepeat : Repeatable e w retry fuel (w.call s) :=
            ⟨x, code, hcall, hclass.2, hclass.1, hcode, hcodeAllowed⟩
          split at h
          · rename_i y t hpause
            exact .interrupted y t hs hrepeat hpause (Option.some.inj h).symm
          · rename_i t hpause
            obtain ⟨rest, hrest, h⟩ := Option.bind_eq_some_iff.mp h
            exact .again x t rest hs hallowed.1 hrepeat hrest (Option.some.inj h).symm

/-- **Every turn keeps the rule**, if the indices reach the maximum. -/
theorem retryFrom_keepsRule {indices : List Nat} (hmax : ∃ k ∈ indices, retry.maximum ≤ k) {error : Option ρ} {s : σ}
    {run : Retried σ ρ} (h : retryFrom e w retry fuel indices error s = some run) :
    KeepsRule e w retry fuel indices.length run ∧ (run.invocations = [] → ∃ message, run.ending = .exhausted message) := by
  induction indices generalizing error s run with
  | nil =>
    obtain ⟨k, hk, -⟩ := hmax
    cases hk
  | cons retryIndex indices ih =>
    cases turn_of_retryFrom h with
    | exhausted hs hrun =>
      subst hrun
      exact ⟨.stopped rfl ⟨rfl, hs, nofun⟩, fun _ => ⟨_, rfl⟩⟩
    | returned hs hcall hrun =>
      subst hrun
      exact ⟨.last hs rfl ⟨_, rfl, hcall⟩, fun hnone => absurd hnone (List.cons_ne_nil _ _)⟩
    | raised x hs hcall hrun =>
      subst hrun
      exact ⟨.last hs rfl ⟨_, rfl, hcall⟩, fun hnone => absurd hnone (List.cons_ne_nil _ _)⟩
    | interrupted y t hs hcall hpause hrun =>
      subst hrun
      exact ⟨.last hs rfl ⟨_, rfl, hcall, hpause⟩, fun hnone => absurd hnone (List.cons_ne_nil _ _)⟩
    | again x t rest hs hindex hcall hrest hrun =>
      have hmax' : ∃ k ∈ indices, retry.maximum ≤ k := by
        obtain ⟨k, hk, hle⟩ := hmax
        obtain rfl | hk := List.mem_cons.mp hk
        · exact absurd hle (Nat.not_le.mpr hindex)
        · exact ⟨k, hk, hle⟩
      obtain ⟨hkeeps, hending⟩ := ih hmax' hrest
      subst hrun
      exact ⟨hkeeps.cons hs hcall hending, fun hnone => absurd hnone (List.cons_ne_nil _ _)⟩

/-- **The loop ends** if the chain behind every error of the operation does. -/
theorem retryFrom_ends (hfinite : ∀ s x, (w.operation s).1 = some x → (w.heap (w.operation s).2).FiniteChain x)
    (indices : List Nat) (error : Option ρ) (s : σ) :
    ∃ n run, ∀ fuel ≥ n, retryFrom e w retry fuel indices error s = some run := by
  induction indices generalizing error s with
  | nil => exact ⟨0, _, fun fuel _ => rfl⟩
  | cons retryIndex indices ih =>
    simp only [retryFrom]
    split
    · exact ⟨0, _, fun fuel _ => rfl⟩
    · split
      · exact ⟨0, _, fun fuel _ => rfl⟩
      · rename_i x hcall
        obtain ⟨n, code, hcode⟩ := adapterRetryCode_ends (c := e.codecs) (hfinite s x hcall)
        obtain ⟨m, rest, hrest⟩ := ih (some x) (w.pause retry (w.call s).after).2
        have hcode' : ∀ fuel ≥ max n m, adapterRetryCode e.codecs (w.heap (w.call s).after) fuel x = some code :=
          fun fuel hfuel => hcode fuel (le_of_max_le_left hfuel)
        split
        · exact ⟨0, _, fun fuel _ => rfl⟩
        · by_cases hstop : (retry.maximum ≤ retryIndex || !code.any (retryCodeAllowed e · retry.retryableCodes)) = true
          · refine ⟨max n m, ⟨.raised x, [w.call s], (w.call s).after⟩, fun fuel hfuel => ?_⟩
            rw [hcode' fuel hfuel, Option.bind_eq_bind, Option.bind_some, if_pos hstop]
            rfl
          · cases hpause : w.pause retry (w.call s).after with
            | mk interrupted t =>
              rw [hpause] at hrest
              cases interrupted with
              | some y =>
                refine ⟨max n m, ⟨.interrupted y, [w.call s], t⟩, fun fuel hfuel => ?_⟩
                rw [hcode' fuel hfuel, Option.bind_eq_bind, Option.bind_some, if_neg hstop]
                rfl
              | none =>
                refine ⟨max n m, {rest with invocations := w.call s :: rest.invocations}, fun fuel hfuel => ?_⟩
                rw [hcode' fuel hfuel, Option.bind_eq_bind, Option.bind_some, if_neg hstop]
                dsimp only
                rw [hrest fuel (le_of_max_le_right hfuel)]
                rfl

/-- **Retries keep the rule**: the operation is called at most once more than the rule says and only
while attempts are left; it is called again only after an error that may be repeated; and the error
of the last call is raised unless the attempts are used up before the next one or the backoff is
interrupted. The loop ends where the chain behind every error does. -/
theorem withRetries_keepsRule (e : Engine) (w : Surroundings σ ρ) (retry : RetryRule) (s : σ) :
    (∀ fuel run, withRetries e w retry fuel s = some run → KeepsRule e w retry fuel (retry.maximum + 1) run) ∧
    ((∀ t x, (w.operation t).1 = some x → (w.heap (w.operation t).2).FiniteChain x) →
      ∃ n run, ∀ fuel ≥ n, withRetries e w retry fuel s = some run) ∧
    ∀ (c : Codecs) (heap : Heap ρ) (x : ρ), heap.FiniteChain x →
      ∃ n code, ∀ fuel ≥ n, adapterRetryCode c heap fuel x = some code := by
  refine ⟨fun fuel run h => ?_, fun hfinite => retryFrom_ends hfinite _ _ _, fun c heap x => adapterRetryCode_ends⟩
  have hmax : ∃ k ∈ List.range (retry.maximum + 1), retry.maximum ≤ k :=
    ⟨retry.maximum, List.self_mem_range_succ, le_refl _⟩
  have hkeeps := (retryFrom_keepsRule hmax h).1
  rwa [List.length_range] at hkeeps

/-! ### The last error may be hidden -/

/-- A request for one attempt. -/
def oneAttempt : ExecutionContext where
  request := {target := "https://a.example", budget := {attempts := 1}}

/-- An operation that begins an attempt and runs into a timeout. -/
def timingOut : Surroundings ExecutionContext Unit where
  context ctx := ctx
  heap _ _ :=
    { classes := [.adapterExecutionError], typeName := "AdapterExecutionError", message := "upstream"
      code := .text "timeout" }
  operation ctx := (some (), {ctx with attempts := ctx.attempts ++ [{
    capabilityId := "http_get", sanitizedDestination := "https://a.example", status := .failed }]})
  sleep _ ctx := (none, ctx)

/-- The attempts are used up when the loop would repeat: what it raises is not the error of the last call. -/
theorem last_error_hidden : ∃ run, withRetries sampleEngine timingOut {} 0 oneAttempt = some run ∧
    (∃ call, run.invocations.getLast? = some call ∧ call.outcome = some ()) ∧
    run.ending = .exhausted "attempt budget exhausted" := by
  have h : (withRetries sampleEngine timingOut {} 0 oneAttempt).map (fun run =>
      (run.ending, run.invocations.getLast?.map (·.outcome))) =
        some (.exhausted "attempt budget exhausted", some (some ())) := by decide +kernel
  obtain ⟨run, hrun, heq⟩ := Option.map_eq_some_iff.mp h
  obtain ⟨hending, hlast⟩ := Prod.mk.inj heq
  exact ⟨run, hrun, Option.map_eq_some_iff.mp hlast, hending⟩

end Fetech.Executor
