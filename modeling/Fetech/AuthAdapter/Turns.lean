import Fetech.AuthAdapter.Segments
import Fetech.Lib.Tickets

/-! What a step of the machine does.

`Turn` lists it once, with what the segments guarantee; the invariants are read off it. Proposals are
the tickets of `Lib.Tickets`: offered by the provider, held by a call, used by an HTTP call. -/
namespace Fetech.AuthAdapter
open Lib Lib.Url AuthFlows Http

variable {a : HttpAdapter}

/-! ### Fields -/

/-- No run gets another request or token. -/
def SameRuns (s t : State a) : Prop := ∀ id, SameRun (s.runs id) (t.runs id)

theorem SameRuns.trans {s t u : State a} (h : SameRuns s t) (h' : SameRuns t u) : SameRuns s u := fun id => (h id).trans (h' id)

namespace State
variable {s : State a} {id : CallId} {run : RunId}

theorem sameRuns_setRun {after : RunState} (h : SameRun (s.runs run) after) : SameRuns s (s.setRun run after) := by
  intro other
  by_cases heq : other = run
  · rw [heq]
    show SameRun _ (Function.update s.runs run after run)
    rw [Function.update_self]
    exact h
  · show SameRun _ (Function.update s.runs run after other)
    rw [Function.update_of_ne heq]
    exact .refl _

theorem sameRuns_setContext {ctx : ExecutionContext} (h : ctx.request = (s.runs run).context.request) :
    SameRuns s (s.setContext run ctx) := sameRuns_setRun ⟨rfl, h⟩

/-- How a call ends, and that nothing else does. -/
structure Ends (s t : State a) (id : CallId) : Prop where
  runs : SameRuns s t
  provider : t.provider = s.provider
  history : t.history = s.history
  calls : ∃ outcome, t.calls = Function.update s.calls id (.ended outcome)

theorem ends_setPhase (outcome : Except HttpError HttpResult) : s.Ends (s.setPhase id (.ended outcome)) id :=
  ⟨fun _ => .refl _, rfl, rfl, outcome, rfl⟩

theorem ends_fail (s : State a) (id : CallId) (call : Call) (fault : Fault) : s.Ends (s.fail id call fault) id := by
  unfold fail
  dsimp only
  split
  · exact ends_setPhase _
  · exact ⟨sameRuns_setContext rfl, rfl, rfl, _, rfl⟩

end State

/-! ### The provider -/

section
variable {c : Codecs} {p : InMemoryFormSubmissionProvider c}

theorem gone_nothing : p.references.filter (fun reference => (p.submissions.get? reference).isNone) = [] := by
  rw [List.filter_eq_nil_iff]
  intro reference hmem
  obtain ⟨e, he, rfl⟩ := List.mem_map.mp hmem
  rw [(Dict.get?_eq_some_iff p.submissions e.1 e.2).mpr he]
  exact Bool.false_ne_true

theorem gone_without {reference : String} {submission : FormSubmission c} (h : p.submissions.get? reference = some submission) :
    p.references.filter (fun other => ((p.without reference).submissions.get? other).isNone) = [reference] := by
  have hmem : reference ∈ p.references :=
    List.mem_map.mpr ⟨(reference, submission), (Dict.get?_eq_some_iff _ _ _).mp h, rfl⟩
  have hnodup : p.references.Nodup := p.submissions.nodup
  have heq : ∀ other ∈ p.references, ((p.without reference).submissions.get? other).isNone = (other == reference) := by
    intro other hother
    obtain ⟨e, he, rfl⟩ := List.mem_map.mp hother
    show ((p.submissions.erase reference).get? e.1).isNone = _
    rw [Dict.get?_erase]
    by_cases hsame : e.1 = reference
    · rw [if_pos hsame, beq_iff_eq.mpr hsame]
      rfl
    · rw [if_neg hsame, (Dict.get?_eq_some_iff p.submissions e.1 e.2).mpr he, beq_eq_false_iff_ne.mpr hsame]
      rfl
  rw [List.filter_congr heq, List.filter_beq, List.count_eq_one_of_mem hnodup hmem]
  rfl

end

/-! ### Steps -/

/-- What the provider loses is what the history gains. -/
inductive Lost (s t : State a) : Prop where
  | nothing (hprovider : t.provider = s.provider) (hhistory : t.history = s.history)
  | one (reference : String) (submission : FormSubmission a.codecs) (hget : s.provider.submissions.get? reference = some submission)
    (hprovider : t.provider = s.provider.without reference)
    (hhistory : t.history = {s.history with taken := s.history.taken ++ [reference]})

theorem settle_kept (s : State a) (id : RunId) {left : Site a.codecs} (h : left.provider = s.provider) :
    (s.settle id left).provider = s.provider ∧ (s.settle id left).history = s.history := by
  unfold State.settle
  rw [h, gone_nothing]
  dsimp only
  rw [List.append_nil]
  exact ⟨rfl, rfl⟩

theorem settle_without (s : State a) (id : RunId) {left : Site a.codecs} {reference : String} {submission : FormSubmission a.codecs}
    (hget : s.provider.submissions.get? reference = some submission) (h : left.provider = s.provider.without reference) :
    (s.settle id left).provider = s.provider.without reference ∧
      (s.settle id left).history = {s.history with taken := s.history.taken ++ [reference]} := by
  unfold State.settle
  rw [h, gone_without hget]
  exact ⟨rfl, rfl⟩

theorem lost_settle (s : State a) (id : RunId) (run : RunState) {provider : InMemoryFormSubmissionProvider a.codecs}
    (h : Consumed s.provider provider) : Lost s (s.settle id ⟨run, provider⟩) := by
  cases h with
  | nothing =>
    obtain ⟨hprovider, hhistory⟩ := settle_kept s id (show (Site.mk run s.provider).provider = s.provider from rfl)
    exact .nothing hprovider hhistory
  | one reference submission hget =>
    obtain ⟨hprovider, hhistory⟩ := settle_without s id hget (show (Site.mk run _).provider = s.provider.without reference from rfl)
    exact .one reference submission hget hprovider hhistory

/-- What a step can do: the runs, calls, provider and history after it. -/
inductive Turn (s t : State a) : Move → Prop
  /-- Other adapters are at work. -/
  | noted {run : RunId} {ops : List ContextOp} (hruns : SameRuns s t) (hprovider : t.provider = s.provider)
    (hhistory : t.history = s.history) (hcalls : t.calls = s.calls) : Turn s t (.others run ops)
  | extracted {run : RunId} {htmlParser : HTMLParser} {sourceId : Nat} {body : List UInt8} (token : CSRFTokenMaterial)
    (after : RunState) (hrequest : after.context.request = (s.runs run).context.request) (htoken : after.csrfToken = some token)
    (hruns : t.runs = Function.update s.runs run after) (hprovider : t.provider = s.provider)
    (hhistory : t.history = {s.history with extracted := s.history.extracted ++ [(run, token)]})
    (hcalls : t.calls = s.calls) : Turn s t (.extract run htmlParser sourceId body)
  | begun {id : CallId} {run : RunId} (call : Call)
    (hreference : (s.runs call.run).context.request.authenticationRef = some call.reference) (hidle : s.calls id = .idle)
    (hruns : SameRuns s t) (hprovider : t.provider = s.provider) (hhistory : t.history = s.history)
    (hcalls : t.calls = Function.update s.calls id (.admitting call)) : Turn s t (.start id run)
  /-- A call ends, perhaps without its proposal. -/
  | ended {m : Move} (id : CallId) (outcome : Except HttpError HttpResult) (hruns : SameRuns s t) (hlost : Lost s t)
    (hcalls : t.calls = Function.update s.calls id (.ended outcome)) : Turn s t m
  | took {id : CallId} {r : Resolution} {instant : ℚ} (call : Call) (submission : FormSubmission a.codecs) (origin : String)
    (hphase : s.calls id = .admitting call) (hget : s.provider.submissions.get? call.reference = some submission)
    (horigin : canonicalOrigin a.codecs submission.target = some origin)
    (hsame : OfOrigin a (s.runs call.run).context.request origin) (hruns : SameRuns s t)
    (hprovider : t.provider = s.provider.without call.reference)
    (hhistory : t.history = {s.history with taken := s.history.taken ++ [call.reference]})
    (hcalls : t.calls = Function.update s.calls id (.proposing call submission)) : Turn s t (.take id r instant)
  | readied {id : CallId} {r : Resolution} {clock : Nat → ℚ} (call : Call) (submission : FormSubmission a.codecs) (p : Prepared a)
    (hphase : s.calls id = .proposing call submission)
    (hready : Ready a (s.runs call.run).context.request (s.runs call.run).csrfToken submission r clock p) (hruns : SameRuns s t)
    (hprovider : t.provider = s.provider) (hhistory : t.history = s.history)
    (hcalls : t.calls = Function.update s.calls id (.requesting call p)) : Turn s t (.prepare id r clock)
  | transmitted {id : CallId} {world : World} {validated : ValidatedAddresses} (call : Call) (p : Prepared a)
    (ctx : ExecutionContext) (outcome : Except HttpError HttpResult) (hphase : s.calls id = .requesting call p)
    (hruns : SameRuns s t) (hprovider : t.provider = s.provider)
    (hhistory : t.history = {s.history with submitted := s.history.submitted ++
      [⟨id, call, p, p.builtAt + (world.hop 0).elapsed, (exchange a p.httpCall world ctx validated).sent⟩]})
    (hcalls : t.calls = Function.update s.calls id (.ended outcome)) : Turn s t (.transmit id world validated)

namespace State
variable {s t : State a}

theorem Ends.turn {id : CallId} {m : Move} (h : s.Ends t id) : Turn s t m := by
  obtain ⟨outcome, hcalls⟩ := h.calls
  exact .ended id outcome h.runs (.nothing h.provider h.history) hcalls

theorem sameRuns_settle {id : RunId} {left : Site a.codecs} (h : SameRun (s.runs id) left.run) : SameRuns s (s.settle id left) :=
  sameRuns_setRun (s := s) h

theorem request_foldl_apply (ops : List ContextOp) (ctx : ExecutionContext) :
    (ops.foldl ContextOp.apply ctx).request = ctx.request := by
  induction ops generalizing ctx with
  | nil => rfl
  | cons op ops ih => exact (ih _).trans (op.apply_grows ctx).request

theorem turn_start {id : CallId} {run : RunId} (hidle : s.calls id = .idle) : Turn s (s.start id run) (.start id run) := by
  unfold start
  dsimp only
  split
  · exact (ends_setPhase _).turn
  · rename_i attempt _
    let begun := s.setContext run {(s.runs run).context with attempts := (s.runs run).context.attempts ++ [attempt]}
    have hbegun : SameRuns s begun := sameRuns_setContext rfl
    split
    · refine .ended id _ (hbegun.trans ?_) (.nothing rfl rfl) rfl
      exact sameRuns_setContext (s := begun) rfl
    · rename_i reference hreference
      exact .begun ⟨run, reference, attempt⟩ hreference hidle (sameRuns_setContext rfl) rfl rfl rfl

theorem turn_others {run : RunId} {ops : List ContextOp} :
    Turn s (s.setContext run (ops.foldl ContextOp.apply (s.runs run).context)) (.others run ops) :=
  .noted (sameRuns_setContext (request_foldl_apply ops _)) rfl rfl rfl

theorem turn_extract {run : RunId} {htmlParser : HTMLParser} {sourceId : Nat} {source : Resource} {body : List UInt8} {after : RunState}
    (h : extractCsrf a.codecs htmlParser source body (s.runs run) = .ok after) :
    let extracted := s.history.extracted ++ after.csrfToken.toList.map fun token => (run, token)
    Turn s {s.setRun run after with history := {s.history with extracted}} (.extract run htmlParser sourceId body) := by
  obtain ⟨token, -, hreturn⟩ := Except.bind_eq_ok.mp h
  refine .extracted token after ?_ ?_ rfl rfl ?_ rfl
  · cases hreturn
    rfl
  · cases hreturn
    rfl
  · cases hreturn
    rfl

/-- The provider is as the segment left it. -/
theorem goOn_provider {α : Type} (id : CallId) (call : Call) (segment : SubmitM a.codecs α) (next : α → Phase a) :
    (s.goOn id call segment next).provider = (segment (s.site call.run)).2.provider := by
  unfold goOn
  cases segment (s.site call.run) with
  | mk result left =>
    cases result with
    | ok x => rfl
    | error fault => exact (ends_fail (s.settle call.run left) id call fault).provider

theorem turn_take {id : CallId} {call : Call} {r : Resolution} {instant : ℚ} (hphase : s.calls id = .admitting call) :
    Turn s (s.goOn id call (takeProposal a call.reference r instant) (.proposing call)) (.take id r instant) := by
  have hmeets := takeProposal_meets a call.reference r instant (s.site call.run)
  unfold goOn
  unfold Program.Meets at hmeets
  cases hsegment : takeProposal a call.reference r instant (s.site call.run) with
  | mk result left =>
    rw [hsegment] at hmeets
    cases result with
    | error fault =>
      obtain ⟨hrun, hconsumed⟩ := hmeets
      have hends := ends_fail (s.settle call.run left) id call fault
      obtain ⟨outcome, hcalls⟩ := hends.calls
      refine .ended id outcome ((sameRuns_settle hrun).trans hends.runs) ?_ hcalls
      cases left with
      | mk run provider =>
        cases lost_settle s call.run run hconsumed with
        | nothing hprovider hhistory => exact .nothing (hends.provider.trans hprovider) (hends.history.trans hhistory)
        | one reference submission hget hprovider hhistory =>
          exact .one reference submission hget (hends.provider.trans hprovider) (hends.history.trans hhistory)
    | ok submission =>
      obtain ⟨hrun, hget, hleft, origin, horigin, hsame⟩ := hmeets
      obtain ⟨hprovider, hhistory⟩ := settle_without s call.run hget hleft
      exact .took call submission origin hphase hget horigin hsame (sameRuns_settle hrun) hprovider hhistory rfl

theorem turn_prepare (hc : a.codecs.Idna) {id : CallId} {call : Call} {submission : FormSubmission a.codecs} {r : Resolution}
    {clock : Nat → ℚ} (hphase : s.calls id = .proposing call submission) :
    Turn s (s.goOn id call (prepareCall a submission r clock) (.requesting call)) (.prepare id r clock) := by
  have hmeets := prepareCall_meets hc submission r clock (s.site call.run)
  unfold goOn
  unfold Program.Meets at hmeets
  cases hsegment : prepareCall a submission r clock (s.site call.run) with
  | mk result left =>
    rw [hsegment] at hmeets
    cases result with
    | error fault =>
      obtain ⟨hrun, hleft⟩ := hmeets
      obtain ⟨hprovider, hhistory⟩ := settle_kept s call.run hleft
      have hends := ends_fail (s.settle call.run left) id call fault
      obtain ⟨outcome, hcalls⟩ := hends.calls
      exact .ended id outcome ((sameRuns_settle hrun).trans hends.runs)
        (.nothing (hends.provider.trans hprovider) (hends.history.trans hhistory)) hcalls
    | ok p =>
      obtain ⟨⟨hrun, hleft⟩, hready⟩ := hmeets
      obtain ⟨hprovider, hhistory⟩ := settle_kept s call.run hleft
      exact .readied call submission p hphase hready (sameRuns_settle hrun) hprovider hhistory rfl

theorem turn_transmit {id : CallId} {call : Call} {p : Prepared a} {world : World} {validated : ValidatedAddresses}
    (hphase : s.calls id = .requesting call p) :
    Turn s (s.transmit id call p world validated) (.transmit id world validated) := by
  have hrequest : (exchange a p.httpCall world (s.runs call.run).context validated).context.request =
      (s.runs call.run).context.request := exchange_request
  unfold transmit
  cases hexchange : Http.request a p.httpCall world (.initial (s.runs call.run).context validated p.httpCall) with
  | mk result left =>
    have hleft : exchange a p.httpCall world (s.runs call.run).context validated = left := congrArg Prod.snd hexchange
    rw [hleft] at hrequest
    dsimp only
    let submitted := s.history.submitted ++ [⟨id, call, p, p.builtAt + (world.hop 0).elapsed, left.sent⟩]
    let before : State a := {s.setContext call.run left.context with history := {s.history with submitted}}
    have hruns : SameRuns s before := sameRuns_setContext (s := s) hrequest
    have hends : ∀ {u : State a}, Ends before u id → Turn s u (.transmit id world validated) := by
      intro u hu
      obtain ⟨outcome, hcalls⟩ := hu.calls
      refine .transmitted call p (s.runs call.run).context outcome hphase (hruns.trans hu.runs) hu.provider ?_ hcalls
      rw [hleft]
      exact hu.history
    cases result with
    | ok result => exact hends (ends_setPhase _)
    | error err => exact hends (ends_fail before id call (.raised err))

/-- **Whatever the machine does is one of these.** -/
theorem step_turn (hc : a.codecs.Idna) {m : Move} (h : (machine a).step s m = some t) : Turn s t m := by
  cases m with
  | extract run htmlParser sourceId body =>
    obtain ⟨source, -, h⟩ := Option.bind_eq_some_iff.mp h
    obtain ⟨after, hafter, hreturn⟩ := Option.bind_eq_some_iff.mp h
    cases hreturn
    exact turn_extract (Except.toOption_eq_some.mp hafter)
  | others run ops =>
    cases h
    exact turn_others
  | start id run =>
    simp only [machine, step] at h
    split at h
    · rename_i hidle
      cases h
      exact turn_start hidle
    · cases h
  | take id r instant =>
    simp only [machine, step] at h
    split at h
    · rename_i hphase
      cases h
      exact turn_take hphase
    · cases h
  | prepare id r clock =>
    simp only [machine, step] at h
    split at h
    · rename_i hphase
      cases h
      exact turn_prepare hc hphase
    · cases h
  | transmit id world validated =>
    simp only [machine, step] at h
    split at h
    · rename_i hphase
      cases h
      exact turn_transmit hphase
    · cases h
  | cancel id =>
    simp only [machine, step] at h
    split at h
    · cases h
    · cases h
    · cases h
      exact (ends_setPhase _).turn

end State

end Fetech.AuthAdapter
