import Fetech.AuthAdapter.Turns
import Fetech.Security.Destinations

/-! Approved forms, over every run of the machine.

A proposal is a ticket for one HTTP call, and what a call holds is the proposal that the provider had
from the start (`Sound`). So the body of a proposal goes out once at the most, where it was approved to
go, whatever the order of the steps. -/
namespace Fetech.AuthAdapter
open Lib Lib.Url AuthFlows Http

variable {a : HttpAdapter}

/-! ### Proposals are tickets -/

/-- The reference of the proposal that a call holds. -/
def Phase.held : Phase a → Option String
  | .proposing call _ => some call.reference
  | .requesting call _ => some call.reference
  | _ => none

def State.tickets (s : State a) : Tickets CallId String where
  offered := {reference | s.provider.submissions.get? reference ≠ none}
  held id := (s.calls id).held
  taken := s.history.taken
  used := s.history.submitted.map (·.call.reference)

theorem offered_without {c : Codecs} (p : InMemoryFormSubmissionProvider c) (reference : String) :
    {other | (p.without reference).submissions.get? other ≠ none} = {other | p.submissions.get? other ≠ none} \ {reference} := by
  ext other
  show (p.submissions.erase reference).get? other ≠ none ↔ p.submissions.get? other ≠ none ∧ other ≠ reference
  rw [Dict.get?_erase]
  by_cases h : other = reference
  · simp [h]
  · simp [h]

theorem held_update (calls : CallId → Phase a) (id : CallId) (phase : Phase a) :
    (fun other => (Function.update calls id phase other).held) = Function.update (fun other => (calls other).held) id phase.held :=
  Function.comp_update Phase.held calls id phase

section
variable {s t : State a} {m : Move}

theorem tickets_same (hprovider : t.provider = s.provider) (hhistory : t.history.taken = s.history.taken)
    (hsubmitted : t.history.submitted = s.history.submitted) (hcalls : t.calls = s.calls) : t.tickets = s.tickets := by
  unfold State.tickets
  rw [hprovider, hhistory, hsubmitted, hcalls]

/-- **A step of the machine is one of the tickets**, or two of them, or none. -/
theorem Turn.proper (h : Turn s t m) (hs : s.tickets.Proper) : t.tickets.Proper := by
  have hoffered : ∀ {reference : String} {submission : FormSubmission a.codecs},
      s.provider.submissions.get? reference = some submission → reference ∈ s.tickets.offered := by
    intro reference submission hget
    show s.provider.submissions.get? reference ≠ none
    rw [hget]
    exact Option.some_ne_none _
  cases h with
  | noted _ hprovider hhistory hcalls =>
    rw [tickets_same hprovider (congrArg _ hhistory) (congrArg _ hhistory) hcalls]
    exact hs
  | extracted _ _ _ _ _ hprovider hhistory hcalls =>
    rw [tickets_same hprovider (by rw [hhistory]) (by rw [hhistory]) hcalls]
    exact hs
  | @begun id _ call _ _ _ hprovider hhistory hcalls =>
    have hdropped := hs.step (.drop id)
    unfold State.tickets
    rw [hprovider, hhistory, hcalls, held_update]
    exact hdropped
  | ended id _ _ hlost hcalls =>
    unfold State.tickets
    cases hlost with
    | nothing hprovider hhistory =>
      have hdropped := hs.step (.drop id)
      rw [hprovider, hhistory, hcalls, held_update]
      exact hdropped
    | one reference _ hget hprovider hhistory =>
      have hdropped := (hs.step (.lose reference (hoffered hget))).step (.drop id)
      rw [hprovider, hhistory, hcalls, held_update, offered_without]
      exact hdropped
  | @took id _ _ call _ _ _ hget _ _ _ hprovider hhistory hcalls =>
    have hheld := hs.step (.hold id call.reference (hoffered hget))
    unfold State.tickets
    rw [hprovider, hhistory, hcalls, held_update, offered_without]
    exact hheld
  | @readied id _ _ call _ p hphase _ _ hprovider hhistory hcalls =>
    have hheld : (s.calls id).held = some call.reference := congrArg Phase.held hphase
    unfold State.tickets
    rw [hprovider, hhistory, hcalls, held_update]
    show Tickets.Proper ⟨_, Function.update _ id (some call.reference), _, _⟩
    rw [← hheld, Function.update_eq_self]
    exact hs
  | @transmitted id _ _ call p _ _ hphase _ hprovider hhistory hcalls =>
    have hused := hs.step (.use id call.reference (congrArg Phase.held hphase))
    unfold State.tickets
    rw [hprovider, hhistory, hcalls, held_update, List.map_append]
    exact hused

end

/-! ### What calls hold -/

section
variable (provider : InMemoryFormSubmissionProvider a.codecs) (contexts : RunId → ExecutionContext) (moves : List Move)
  (extracted : List (RunId × CSRFTokenMaterial))

/-- A call has the proposal of its reference, on the origin of its request. -/
structure Chosen (call : Call) (submission : FormSubmission a.codecs) : Prop where
  reference : (contexts call.run).request.authenticationRef = some call.reference
  original : provider.submissions.get? call.reference = some submission
  origin : ∃ origin, canonicalOrigin a.codecs submission.target = some origin ∧ OfOrigin a (contexts call.run).request origin

/-- A call may make its HTTP call: a move found its proposal in order, with a token of the run. -/
def Cleared (id : CallId) (call : Call) (p : Prepared a) : Prop :=
  ∃ submission token r clock, Chosen provider contexts call submission ∧ .prepare id r clock ∈ moves ∧
    Ready a (contexts call.run).request token submission r clock p ∧ ∀ m ∈ token, (call.run, m) ∈ extracted

/-- What holds of a call where it awaits. -/
def PhaseSound (id : CallId) : Phase a → Prop
  | .admitting call => (contexts call.run).request.authenticationRef = some call.reference
  | .proposing call submission => Chosen provider contexts call submission
  | .requesting call p => Cleared provider contexts moves extracted id call p
  | _ => True

/-- What the machine has done and is at. -/
structure Sound (s : State a) : Prop where
  request : ∀ run, (s.runs run).context.request = (contexts run).request
  token : ∀ run, ∀ m ∈ (s.runs run).csrfToken, (run, m) ∈ s.history.extracted
  left : ∀ reference, s.provider.submissions.get? reference =
    if reference ∈ s.history.taken then none else provider.submissions.get? reference
  phases : ∀ id, PhaseSound provider contexts moves s.history.extracted id (s.calls id)
  submitted : ∀ e ∈ s.history.submitted, Cleared provider contexts moves s.history.extracted e.id e.call e.prepared ∧
    ∃ world ctx validated, e.sent = (exchange a e.prepared.httpCall world ctx validated).sent

end

section
variable {provider : InMemoryFormSubmissionProvider a.codecs} {contexts : RunId → ExecutionContext} {moves moves' : List Move}
  {extracted extracted' : List (RunId × CSRFTokenMaterial)} {s t : State a} {m : Move}

theorem Cleared.mono (hmoves : moves ⊆ moves') (hextracted : extracted ⊆ extracted') {id : CallId} {call : Call} {p : Prepared a}
    (h : Cleared provider contexts moves extracted id call p) : Cleared provider contexts moves' extracted' id call p := by
  obtain ⟨submission, token, r, clock, hchosen, hmove, hready, htoken⟩ := h
  exact ⟨submission, token, r, clock, hchosen, hmoves hmove, hready, fun m hm => hextracted (htoken m hm)⟩

theorem PhaseSound.mono (hmoves : moves ⊆ moves') (hextracted : extracted ⊆ extracted') {id : CallId} {phase : Phase a}
    (h : PhaseSound provider contexts moves extracted id phase) : PhaseSound provider contexts moves' extracted' id phase := by
  cases phase with
  | requesting call p => exact Cleared.mono hmoves hextracted h
  | idle => exact h
  | admitting call => exact h
  | proposing call submission => exact h
  | ended outcome => exact h

namespace Sound

theorem offered (hs : Sound provider contexts moves s) {reference : String} {submission : FormSubmission a.codecs}
    (h : s.provider.submissions.get? reference = some submission) : provider.submissions.get? reference = some submission := by
  rw [hs.left] at h
  exact (Option.ite_none_left_eq_some.mp h).2

theorem left_kept (hs : Sound provider contexts moves s) (hprovider : t.provider = s.provider)
    (htaken : t.history.taken = s.history.taken) (reference : String) :
    t.provider.submissions.get? reference = if reference ∈ t.history.taken then none else provider.submissions.get? reference := by
  rw [hprovider, htaken]
  exact hs.left reference

/-- With one proposal less. -/
theorem left_without (hs : Sound provider contexts moves s) {taken : String} (hprovider : t.provider = s.provider.without taken)
    (htaken : t.history.taken = s.history.taken ++ [taken]) (reference : String) :
    t.provider.submissions.get? reference = if reference ∈ t.history.taken then none else provider.submissions.get? reference := by
  rw [hprovider, htaken]
  show (s.provider.submissions.erase taken).get? reference = _
  rw [Dict.get?_erase]
  by_cases hsame : reference = taken
  · rw [if_pos hsame, if_pos (List.mem_append_right _ (List.mem_singleton.mpr hsame))]
  · rw [if_neg hsame, hs.left]
    simp [hsame]

/-- With one call in another phase. -/
theorem phases_update (hs : Sound provider contexts moves s) (hmoves : moves ⊆ moves') {id : CallId} {phase : Phase a}
    (hcalls : t.calls = Function.update s.calls id phase) (hextracted : t.history.extracted = s.history.extracted)
    (hphase : PhaseSound provider contexts moves' s.history.extracted id phase) (other : CallId) :
    PhaseSound provider contexts moves' t.history.extracted other (t.calls other) := by
  rw [hcalls, hextracted]
  by_cases hsame : other = id
  · rw [hsame, Function.update_self]
    exact hphase
  · rw [Function.update_of_ne hsame]
    exact (hs.phases other).mono hmoves (List.Subset.refl _)

/-- **A step keeps all of it.** -/
theorem step (hs : Sound provider contexts moves s) (h : Turn s t m) : Sound provider contexts (moves ++ [m]) t := by
  have hmoves : moves ⊆ moves ++ [m] := List.subset_append_left _ _
  have hsubmitted : ∀ e ∈ s.history.submitted,
      Cleared provider contexts (moves ++ [m]) s.history.extracted e.id e.call e.prepared ∧
        ∃ world ctx validated, e.sent = (exchange a e.prepared.httpCall world ctx validated).sent := by
    intro e he
    obtain ⟨hcleared, hsent⟩ := hs.submitted e he
    exact ⟨hcleared.mono hmoves (List.Subset.refl _), hsent⟩
  have hrequest : SameRuns s t → ∀ run, (t.runs run).context.request = (contexts run).request :=
    fun hruns run => (hruns run).request.trans (hs.request run)
  have htoken : SameRuns s t → t.history.extracted = s.history.extracted →
      ∀ run, ∀ m ∈ (t.runs run).csrfToken, (run, m) ∈ t.history.extracted := by
    intro hruns hextracted run
    rw [(hruns run).token, hextracted]
    exact hs.token run
  cases h with
  | noted hruns hprovider hhistory hcalls =>
    refine ⟨hrequest hruns, htoken hruns (congrArg _ hhistory), hs.left_kept hprovider (congrArg _ hhistory), fun id => ?_, ?_⟩
    · rw [hcalls, hhistory]
      exact (hs.phases id).mono hmoves (List.Subset.refl _)
    · rw [hhistory]
      exact hsubmitted
  | @extracted run _ _ _ token after hafter htoken hruns hprovider hhistory hcalls =>
    have hextracted : s.history.extracted ⊆ t.history.extracted := by
      rw [hhistory]
      exact List.subset_append_left _ _
    refine ⟨fun other => ?_, fun other => ?_, hs.left_kept hprovider (by rw [hhistory]), fun id => ?_, ?_⟩
    · rw [hruns]
      by_cases hsame : other = run
      · rw [hsame, Function.update_self, hafter]
        exact hs.request run
      · rw [Function.update_of_ne hsame]
        exact hs.request other
    · rw [hruns]
      by_cases hsame : other = run
      · rw [hsame, Function.update_self, htoken, hhistory]
        rintro _ ⟨⟩
        exact List.mem_append_right _ (List.mem_singleton_self _)
      · rw [Function.update_of_ne hsame]
        exact fun m hm => hextracted (hs.token other m hm)
    · rw [hcalls]
      exact (hs.phases id).mono hmoves hextracted
    · intro e he
      rw [hhistory] at he
      obtain ⟨hcleared, hsent⟩ := hsubmitted e he
      exact ⟨hcleared.mono (List.Subset.refl _) hextracted, hsent⟩
  | @begun id run call hreference _ hruns hprovider hhistory hcalls =>
    refine ⟨hrequest hruns, htoken hruns (congrArg _ hhistory), hs.left_kept hprovider (congrArg _ hhistory), ?_, ?_⟩
    · apply hs.phases_update hmoves hcalls (congrArg _ hhistory)
      show (contexts call.run).request.authenticationRef = _
      rw [← hs.request]
      exact hreference
    · rw [hhistory]
      exact hsubmitted
  | ended id outcome hruns hlost hcalls =>
    cases hlost with
    | nothing hprovider hhistory =>
      refine ⟨hrequest hruns, htoken hruns (congrArg _ hhistory), hs.left_kept hprovider (congrArg _ hhistory), ?_, ?_⟩
      · exact hs.phases_update hmoves hcalls (congrArg _ hhistory) trivial
      · rw [hhistory]
        exact hsubmitted
    | one reference submission hget hprovider hhistory =>
      refine ⟨hrequest hruns, htoken hruns (by rw [hhistory]), hs.left_without hprovider (by rw [hhistory]), ?_, ?_⟩
      · exact hs.phases_update hmoves hcalls (by rw [hhistory]) trivial
      · rw [hhistory]
        exact hsubmitted
  | @took id _ _ call submission origin hphase hget horigin hsame hruns hprovider hhistory hcalls =>
    refine ⟨hrequest hruns, htoken hruns (by rw [hhistory]), hs.left_without hprovider (by rw [hhistory]), ?_, ?_⟩
    · apply hs.phases_update hmoves hcalls (by rw [hhistory])
      have hreference := hs.phases id
      rw [hphase] at hreference
      rw [hs.request] at hsame
      exact ⟨hreference, hs.offered hget, origin, horigin, hsame⟩
    · rw [hhistory]
      exact hsubmitted
  | @readied id r clock call submission p hphase hready hruns hprovider hhistory hcalls =>
    refine ⟨hrequest hruns, htoken hruns (congrArg _ hhistory), hs.left_kept hprovider (congrArg _ hhistory), ?_, ?_⟩
    · apply hs.phases_update hmoves hcalls (congrArg _ hhistory)
      have hchosen := hs.phases id
      rw [hphase] at hchosen
      rw [hs.request] at hready
      exact ⟨submission, _, r, clock, hchosen, List.mem_append_right _ (List.mem_singleton_self _), hready, hs.token call.run⟩
    · rw [hhistory]
      exact hsubmitted
  | @transmitted id world validated call p ctx outcome hphase hruns hprovider hhistory hcalls =>
    refine ⟨hrequest hruns, htoken hruns (by rw [hhistory]), hs.left_kept hprovider (by rw [hhistory]), ?_, ?_⟩
    · exact hs.phases_update hmoves hcalls (by rw [hhistory]) trivial
    · intro e he
      rw [hhistory] at he ⊢
      rcases List.mem_append.mp he with hold | hnew
      · exact hsubmitted e hold
      · rw [List.mem_singleton.mp hnew]
        have hcleared := hs.phases id
        rw [hphase] at hcleared
        exact ⟨Cleared.mono hmoves (List.Subset.refl _) hcleared, world, ctx, validated, rfl⟩

end Sound

end

/-! ### What is sent -/

/-- The requests with a body that went out for a reference. -/
def State.bodies (s : State a) (reference : String) : List Sent :=
  (s.history.submitted.filter fun e => e.call.reference = reference).flatMap fun e => e.sent.filter (·.body.isSome)

/-- An HTTP call that `_submit_form` may make: for a proposal of the provider, approved for its target
and method when the body was built, on the origin of the request, where the policy lets it as it is. -/
structure Permitted (provider : InMemoryFormSubmissionProvider a.codecs) (contexts : RunId → ExecutionContext) (moves : List Move)
    (extracted : List (RunId × CSRFTokenMaterial)) (id : CallId) (call : Call) (p : Prepared a) : Prop where
  reference : (contexts call.run).request.authenticationRef = some call.reference
  proposal : ∃ original, provider.submissions.get? call.reference = some original ∧ p.submission.target = original.target ∧
    p.submission.fields = original.fields ∧ p.submission.approval = original.approval ∧
      (original.csrf = none ∨ original.csrf = p.submission.csrf)
  approval : ∃ approval, p.submission.approval = some approval ∧ approval.target = p.submission.target ∧
    approval.method = normalizedMethod a.codecs p.submission.method ∧ approval.grantedAt ≤ p.builtAt ∧ p.builtAt < approval.expiresAt
  origin : ∃ origin, canonicalOrigin a.codecs p.submission.target = some origin ∧ OfOrigin a (contexts call.run).request origin
  accepted : ∃ r clock, .prepare id r clock ∈ moves ∧ p.builtAt = clock 2 ∧
    a.policy.Accepts r.addresses p.submission.target (some (contexts call.run).request.target) p.submission.target
  csrf : ∀ token ∈ p.submission.csrf, (call.run, token) ∈ extracted ∧ token.formAction = p.submission.target ∧
    token.formMethod = normalizedMethod a.codecs p.submission.method
  payload : p.payload = p.submission.fieldsWithToken

section
variable {provider : InMemoryFormSubmissionProvider a.codecs} {contexts : RunId → ExecutionContext} {moves : List Move}
  {extracted : List (RunId × CSRFTokenMaterial)} {s : State a}

theorem formMethod_eq_ok {c : Codecs} {method result : String} (h : formMethod c method = .ok result) :
    result = normalizedMethod c method := by
  obtain ⟨_, -, hreturn⟩ := Except.bind_eq_ok.mp h
  cases hreturn
  rfl

theorem Cleared.permitted (hc : a.codecs.Idna) {id : CallId} {call : Call} {p : Prepared a}
    (h : Cleared provider contexts moves extracted id call p) : Permitted provider contexts moves extracted id call p := by
  obtain ⟨submission, token, r, clock, hchosen, hmove, hready, htoken⟩ := h
  obtain ⟨htarget, hfields, happroval, hcsrf, hown⟩ := hready.bound
  have hnormal := hready.accepted.normalized
  rw [← htarget] at hnormal
  refine ⟨hchosen.reference, ⟨submission, hchosen.original, htarget, hfields, happroval, hcsrf ▸ hown⟩, ?_, ?_, ?_, ?_, hready.payload⟩
  · obtain ⟨approval, hgiven, hfor, hmethod, hgranted, hexpires⟩ := hready.authorized
    rw [← hready.builtAt] at hgranted hexpires
    exact ⟨approval, hgiven, httpsUrl_of_normal hc hnormal hfor, formMethod_eq_ok hmethod, hgranted, hexpires⟩
  · rw [htarget]
    exact hchosen.origin
  · rw [htarget]
    exact ⟨r, clock, hmove, hready.builtAt, hready.accepted⟩
  · intro m hm
    have happlies := p.submission.bound
    rw [hm, Option.all_some] at happlies
    obtain ⟨haction, hmethod⟩ := appliesTo_iff.mp happlies
    rw [hcsrf] at hm
    exact ⟨htoken m hm, httpsUrl_of_normal hc hnormal haction, formMethod_eq_ok hmethod⟩

theorem sound_initial : Sound provider contexts [] (.initial provider contexts) := by
  refine ⟨fun _ => rfl, fun _ _ h => ?_, fun _ => ?_, fun _ => trivial, List.forall_mem_nil _⟩
  · cases h
  · exact (if_neg List.not_mem_nil).symm

theorem sound_of_run (hc : a.codecs.Idna) (hrun : (State.machine a).run (.initial provider contexts) moves = some s) :
    Sound provider contexts moves s :=
  Machine.run_history (I := Sound provider contexts) sound_initial
    (fun _ _ _ _ _ hs hstep => hs.step (State.step_turn hc hstep)) hrun

theorem proper_of_run (hc : a.codecs.Idna) (hrun : (State.machine a).run (.initial provider contexts) moves = some s) :
    s.tickets.Proper := by
  have hstart : (State.initial provider contexts).tickets.Proper :=
    Tickets.proper_fresh {reference | provider.submissions.get? reference ≠ none}
  exact Machine.run_invariant_of_step (fun _ _ _ hs hstep => (State.step_turn hc hstep).proper hs) hstart hrun

theorem length_filter_of_first {α : Type} {q : α → Bool} {l : List α}
    (h : ∀ before x after, l = before ++ x :: after → q x = true → before = []) : (l.filter q).length ≤ 1 := by
  cases l with
  | nil => exact Nat.zero_le 1
  | cons y l =>
    have hnone : l.filter q = [] := by
      rw [List.filter_eq_nil_iff]
      intro x hx hq
      obtain ⟨before, after, rfl⟩ := List.append_of_mem hx
      exact List.cons_ne_nil y before (h (y :: before) x after rfl hq)
    rw [List.filter_cons, hnone]
    split
    · exact le_rfl
    · exact Nat.zero_le 1

/-- One HTTP call sends one body. -/
theorem length_filter_body {e : Submitted a} {world : World} {ctx : ExecutionContext} {validated : ValidatedAddresses}
    (hsent : e.sent = (exchange a e.prepared.httpCall world ctx validated).sent) : (e.sent.filter (·.body.isSome)).length ≤ 1 := by
  apply length_filter_of_first
  intro before x after hsplit hbody
  rw [hsent] at hsplit
  exact (exchange_httpCall hsplit (Option.isSome_iff_ne_none.mp hbody)).1

theorem length_bodies_le_one (hproper : s.tickets.Proper)
    (hsubmitted : ∀ e ∈ s.history.submitted, (e.sent.filter (·.body.isSome)).length ≤ 1) (reference : String) :
    (s.bodies reference).length ≤ 1 := by
  have honce : (s.history.submitted.filter fun e => e.call.reference = reference).length ≤ 1 := by
    have hcount : (s.history.submitted.map (·.call.reference)).count reference ≤ 1 :=
      List.nodup_iff_count_le_one.mp hproper.single reference
    rw [List.count_eq_countP, List.countP_map, List.countP_eq_length_filter] at hcount
    simpa only [Function.comp_def, beq_eq_decide] using hcount
  unfold State.bodies
  cases hcalls : s.history.submitted.filter fun e => e.call.reference = reference with
  | nil => exact Nat.zero_le 1
  | cons e others =>
    rw [hcalls, List.length_cons] at honce
    have hothers : others = [] := List.eq_nil_of_length_eq_zero (by omega)
    have hmem : e ∈ s.history.submitted := (List.mem_filter.mp (hcalls ▸ List.mem_cons_self)).1
    rw [hothers, List.flatMap_cons, List.flatMap_nil, List.append_nil]
    exact hsubmitted e hmem

/-- **A form goes out as it was approved**, in every run of the machine: the body of a proposal is sent at
most once, by an HTTP call that may be made, to the target of the proposal, and what was taken out of the
provider is not found there again. -/
theorem form_sent_as_approved (hc : a.codecs.Idna) (hrun : (State.machine a).run (.initial provider contexts) moves = some s) :
    (∀ reference, (s.bodies reference).length ≤ 1) ∧
      (∀ e ∈ s.history.submitted, Permitted provider contexts moves s.history.extracted e.id e.call e.prepared ∧
        e.call.reference ∈ s.history.taken ∧ ∀ x ∈ e.sent, x.body ≠ none → x.url = e.prepared.submission.target ∧
          x.method = normalizedMethod a.codecs e.prepared.submission.method ∧ x.body = some (encodedPayload e.prepared.payload)) ∧
      s.history.taken.Nodup ∧ (∀ reference, s.provider.submissions.get? reference =
        if reference ∈ s.history.taken then none else provider.submissions.get? reference) ∧
      ∀ id call r instant t url left key, s.calls id = .admitting call → (State.machine a).step s (.take id r instant) = some t →
        evaluateSessionPolicy a r (s.site call.run) = (.ok url, left) →
        boundedReference call.reference "authentication_ref" = .ok key → t.provider.submissions.get? key = none := by
  have hsound := sound_of_run hc hrun
  have hproper := proper_of_run hc hrun
  refine ⟨?_, ?_, hproper.once, hsound.left, ?_⟩
  · apply length_bodies_le_one hproper
    intro e he
    obtain ⟨-, world, ctx, validated, hsent⟩ := hsound.submitted e he
    exact length_filter_body hsent
  · intro e he
    obtain ⟨hcleared, world, ctx, validated, hsent⟩ := hsound.submitted e he
    have hpermitted := hcleared.permitted hc
    refine ⟨hpermitted, (hproper.spent _ (List.mem_map_of_mem he)).1, fun x hx hbody => ?_⟩
    obtain ⟨before, after, hsplit⟩ := List.append_of_mem (hsent ▸ hx)
    obtain ⟨-, hurl, hmethod, hencoded⟩ := exchange_httpCall hsplit hbody
    obtain ⟨_, _, -, -, haccepted⟩ := hpermitted.accepted
    exact ⟨(Option.some.inj (haccepted.normalized.symm.trans hurl)).symm, hmethod, hencoded⟩
  · intro id call r instant t url left key hphase hstep hpolicy hkey
    have ht : t = s.goOn id call (takeProposal a call.reference r instant) (.proposing call) := by
      simp only [State.machine, State.step, hphase, Option.some.injEq] at hstep
      exact hstep.symm
    rw [ht, State.goOn_provider]
    exact takeProposal_gone hkey hpolicy

end

/-! ### Two runs with one reference -/

def formAdapter : HttpAdapter := {sampleAdapter with policy := SafeUrlPolicy.openPolicy}

theorem formApproval_bounded : (300 : ℚ) - 0 ≤ maximumApprovalLifetime := by decide +kernel

def formApproval : FormSubmissionApproval where
  approvalId := "approval-1"
  target := "https://example.com/submit"
  method := "POST"
  grantedAt := 0
  expiresAt := 300
  actor := "user"
  later := by decide
  bounded := formApproval_bounded

def formProposal : FormSubmission plainCodecs where
  target := "https://example.com/submit"
  method := "POST"
  fields := (∅ : Dict String String).set "item" "42"
  authenticationRef := some "form-1"
  csrf := none
  approval := some formApproval
  mutates := rfl
  bound := rfl

def formProvider : InMemoryFormSubmissionProvider formAdapter.codecs :=
  (InMemoryFormSubmissionProvider.create ((∅ : Dict String _).set "form-1" formProposal)).toOption.getD .empty

/-- Every run has read the page with the form. -/
def formRuns (_ : RunId) : ExecutionContext where
  request := {target := "https://example.com/form", authenticationRef := some "form-1"}
  resources := [{resourceId := 7, canonicalUrl := "https://example.com/form"}]

def formPage : List UInt8 :=
  "<form action=\"/submit\" method=\"post\"><input type=\"hidden\" name=\"csrf_token\" value=\"secret\"></form>".toUTF8.toList

def resolving : Resolution := {addresses := fun _ _ => ["93.184.216.34"]}

/-- A call in each of two runs; the first one has the proposal and makes its HTTP call. -/
def twoCalls (world : World) : List Move :=
  [.start 0 0, .start 1 1, .take 0 resolving 1, .take 1 resolving 2, .prepare 0 resolving fun _ => 290, .transmit 0 world ∅]

def formsAfter (moves : List Move) : Option (State formAdapter) :=
  (State.machine formAdapter).run (.initial formProvider formRuns) moves

theorem form_sent_as_approved_twoCalls :
    ∃ s, formsAfter (.extract 0 loginTags 7 formPage :: twoCalls (scripted [])) = some s ∧
      (∀ reference, (s.bodies reference).length ≤ 1) ∧
      (s.bodies "form-1").map (·.body) = [some "item=42&csrf_token=secret".toUTF8.toList] := by
  have hbodies : (formsAfter (.extract 0 loginTags 7 formPage :: twoCalls (scripted []))).map
      (fun s => (s.bodies "form-1").map (·.body)) = some [some "item=42&csrf_token=secret".toUTF8.toList] := by
    decide +kernel
  obtain ⟨s, hrun, hbodies⟩ := Option.map_eq_some_iff.mp hbodies
  exact ⟨s, hrun, (form_sent_as_approved (a := formAdapter) plainCodecs_idna hrun).1, hbodies⟩

/-- Twenty seconds pass before a call asks for its slot, ten of them after the approval has expired. -/
def busy : World := {hop := fun _ => {answering {status := 200} with elapsed := 20}}

/-- **An approval may expire after its last check, before the HTTP call asks for its slot**, and the body goes
out even so, here without a token. -/
theorem form_sent_after_expiry : ∃ s, formsAfter (twoCalls busy) = some s ∧ ∃ e ∈ s.history.submitted,
    (∃ x ∈ e.sent, x.body ≠ none) ∧ e.prepared.submission.csrf = none ∧
      ∀ approval ∈ e.prepared.submission.approval, approval.expiresAt < e.askedAt := by
  have hlate : (formsAfter (twoCalls busy)).map (fun s => s.history.submitted.map fun e =>
      (e.sent.map (·.body.isSome), e.prepared.submission.csrf, e.prepared.submission.approval.map (·.expiresAt), e.askedAt)) =
      some [([true], none, some 300, 310)] := by decide +kernel
  obtain ⟨s, hrun, hlate⟩ := Option.map_eq_some_iff.mp hlate
  obtain ⟨e, hsubmitted, he⟩ := List.map_eq_singleton_iff.mp hlate
  simp only [Prod.mk.injEq] at he
  obtain ⟨hsent, htoken, hexpires, hasked⟩ := he
  obtain ⟨x, hx, hbody⟩ := List.map_eq_singleton_iff.mp hsent
  refine ⟨s, hrun, e, hsubmitted ▸ List.mem_singleton_self e, ⟨x, ?_, Option.isSome_iff_ne_none.mp hbody⟩, htoken, ?_⟩
  · rw [hx]
    exact List.mem_singleton_self x
  · intro approval happroval
    rw [happroval] at hexpires
    have hend : approval.expiresAt = 300 := Option.some.inj hexpires
    rw [hend, hasked]
    decide

end Fetech.AuthAdapter
