import Fetech.AuthAdapter
import Fetech.AuthFlows.Csrf
import Fetech.Http.Bodies

/-! What a call of `_submit_form` does between two awaits.

It takes the proposal under its reference out of the provider, or goes no further (`takeProposal_meets`).
What it goes on to is that proposal, its target being in normal form, approved when the body is built
and with no token but the one of the run (`prepareCall_meets`). -/
namespace Fetech.AuthAdapter
open Lib Lib.Url AuthFlows Http

section
open Lib.Except
variable {c : Codecs}

/-! ### Proposals made anew -/

/-- A target in the one spelling of the policy is in that of the approvals. -/
theorem httpsUrl_of_normal (hc : c.Idna) {target url : String} (hnormal : normalizeUrl c target = some target)
    (h : httpsUrl c target = .ok url) : url = target := by
  obtain ⟨parts, encoded, port, hread, htarget⟩ := normalizeUrl_iff.mp hnormal
  rw [httpsUrl_eq_ok hc h hread]
  exact htarget.symm

/-- The loop of `_validated_form_fields` copies what is left. -/
theorem foldlM_validatedField {l : List (String × String)} {d : Dict String String} {n : Nat} {result : Dict String String × Nat}
    (hnew : ∀ e ∈ l, d.get? e.1 = none) (hnodup : (l.map Prod.fst).Nodup) (h : l.foldlM validatedField (d, n) = .ok result) :
    result.1.entries = d.entries ++ l := by
  induction l generalizing d n with
  | nil =>
    cases h
    rw [List.append_nil]
  | cons e l ih =>
    rw [List.foldlM_cons, bind_eq_ok] at h
    obtain ⟨next, hnext, h⟩ := h
    simp only [validatedField, bind_eq_ok, require_eq_ok] at hnext
    obtain ⟨-, -, -, -, -, -, hreturn⟩ := hnext
    cases hreturn
    rw [List.forall_mem_cons] at hnew
    rw [List.map_cons, List.nodup_cons] at hnodup
    have hlater : ∀ e' ∈ l, (d.set e.1 e.2).get? e'.1 = none := by
      intro e' he'
      have hne : e'.1 ≠ e.1 := fun heq => hnodup.1 (heq ▸ List.mem_map_of_mem he')
      rw [Dict.get?_set, if_neg hne]
      exact hnew.2 e' he'
    rw [ih hlater hnodup.2 h, Dict.entries_set_of_absent hnew.1]
    simp

/-- Fields that are valid stay as they are. -/
theorem validatedFormFields_eq_ok {fields result : Dict String String} (h : validatedFormFields fields = .ok result) :
    result = fields := by
  simp only [validatedFormFields, bind_eq_ok] at h
  obtain ⟨-, -, copied, hcopied, hreturn⟩ := h
  cases hreturn
  have hentries := foldlM_validatedField (fun _ _ => Dict.get?_empty _) fields.nodup hcopied
  cases hresult : copied.1 with
  | mk entries nodup =>
    rw [hresult] at hentries
    cases fields
    cases hentries
    rfl

theorem boundToken_eq_ok {target method : String} {fields : Dict String String} {csrf : Option CSRFTokenMaterial}
    {result : {csrf : Option CSRFTokenMaterial // csrf.all (·.appliesTo c target method) = true}}
    (h : boundToken c target method fields csrf = .ok result) : result.1 = csrf := by
  unfold boundToken at h
  split at h
  · cases h
    rfl
  · split at h
    · simp only [bind_eq_ok] at h
      obtain ⟨_, -, hreturn⟩ := h
      cases hreturn
      rfl
    · cases h

/-- What a proposal is made with. -/
theorem create_eq_ok {instant : ℚ} {target method : String} {fields : Dict String String} {authenticationRef : Option String}
    {csrf : Option CSRFTokenMaterial} {approval : Option FormSubmissionApproval} {s : FormSubmission c}
    (h : FormSubmission.create instant target method fields authenticationRef csrf approval = .ok s) :
    httpsUrl c target = .ok s.target ∧ s.fields = fields ∧ s.csrf = csrf ∧ s.approval = approval := by
  simp only [FormSubmission.create, bind_eq_ok, mapError_eq_ok] at h
  obtain ⟨_, htarget, ⟨_, _⟩, -, _, hfields, _, -, ⟨_, _⟩, hcsrf, _, -, hreturn⟩ := h
  cases hreturn
  exact ⟨htarget, validatedFormFields_eq_ok hfields, boundToken_eq_ok hcsrf, rfl⟩

end

/-! ### What stays -/

/-- A run with its request and its token. -/
structure SameRun (before after : RunState) : Prop where
  token : after.csrfToken = before.csrfToken
  request : after.context.request = before.context.request

theorem SameRun.refl (run : RunState) : SameRun run run := ⟨rfl, rfl⟩

theorem SameRun.trans {r r' r'' : RunState} (h : SameRun r r') (h' : SameRun r' r'') : SameRun r r'' :=
  ⟨h'.token.trans h.token, h'.request.trans h.request⟩

section
open Lib.Program
variable {c : Codecs} {a : HttpAdapter} {r : Resolution} {s : Site a.codecs}

theorem evaluate_meets (a : HttpAdapter) (target : String) (previousUrl : Option String) (r : Resolution) (s : Site a.codecs) :
    (evaluate a target previousUrl r).Meets s
      (fun url t => (SameRun s.run t.run ∧ t.provider = s.provider) ∧ a.policy.Accepts r.addresses target previousUrl url)
      fun _ t => t = s := by
  rw [evaluate, meets_bind, meets_ofExcept]
  refine ⟨fun evaluated hevaluated => ?_, fun _ _ => rfl⟩
  obtain ⟨url, decisions, validated⟩ := evaluated
  obtain ⟨hrequest, -, -⟩ := recordDecisions_kept decisions s.run.context
  rw [meets_bind, meets_modify, meets_pure]
  exact ⟨⟨⟨rfl, hrequest⟩, rfl⟩, _, _, _, Except.mapError_eq_ok.mp hevaluated⟩

/-! ### To the proposal -/

/-- A request whose target, in its one spelling, is of that origin. -/
def OfOrigin (a : HttpAdapter) (request : FetchRequest) (origin : String) : Prop :=
  ∃ url, normalizeUrl a.codecs request.target = some url ∧ url.startsWith "https://" = true ∧
    canonicalOrigin a.codecs url = some origin

theorem block_meets {α : Type} {policyId reason url : String} {P : Site a.codecs → Prop} (h : P s) {Q : α → Site a.codecs → Prop} :
    (block a policyId reason url).Meets s Q fun _ t => P t := by
  rw [block, meets_bind, meets_ofOption]
  exact ⟨fun _ _ => h, fun _ => h⟩

theorem evaluateSessionPolicy_meets (a : HttpAdapter) (r : Resolution) (s : Site a.codecs) :
    (evaluateSessionPolicy a r).Meets s
      (fun url t => (SameRun s.run t.run ∧ t.provider = s.provider) ∧
        normalizeUrl a.codecs s.run.context.request.target = some url ∧ url.startsWith "https://" = true)
      fun _ t => SameRun s.run t.run ∧ t.provider = s.provider := by
  rw [evaluateSessionPolicy, meets_bind, meets_get, meets_bind]
  apply (evaluate_meets a _ none r s).mono
  · intro url t ht
    rw [meets_bind, meets_when]
    refine ⟨fun _ => block_meets (P := fun t => SameRun s.run t.run ∧ t.provider = s.provider) ht.1, fun hhttps => ?_⟩
    rw [meets_pure]
    exact ⟨ht.1, ht.2.normalized, Bool.eq_true_of_not_eq_false hhttps⟩
  · rintro _ t rfl
    exact ⟨.refl _, rfl⟩

/-- A proposal comes out of the provider at most once. -/
inductive Consumed (p : InMemoryFormSubmissionProvider c) : InMemoryFormSubmissionProvider c → Prop where
  | nothing : Consumed p p
  | one (reference : String) (submission : FormSubmission c) (hget : p.submissions.get? reference = some submission) :
    Consumed p (p.without reference)

/-- What `consume` returns and leaves. -/
theorem consume_eq (p : InMemoryFormSubmissionProvider c) (reference : String) (instant : ℚ) :
    p.consume reference instant = match boundedReference reference "authentication_ref" with
      | .error err => (.error (.flow err), p)
      | .ok key => match p.submissions.get? key with
        | none => (.error (.notFound "approved form submission is unavailable"), p)
        | some submission => (submission.assertAuthorized instant >>= fun _ => .ok submission, p.without key) := by
  unfold InMemoryFormSubmissionProvider.consume InMemoryFormSubmissionProvider.pop
  cases boundedReference reference "authentication_ref" with
  | error err => rfl
  | ok key =>
    dsimp only
    cases p.submissions.get? key with
    | none => rfl
    | some submission => rfl

theorem consume_consumed (p : InMemoryFormSubmissionProvider c) (reference : String) (instant : ℚ) :
    Consumed p (p.consume reference instant).2 := by
  rw [consume_eq]
  split
  · exact .nothing
  · split
    · exact .nothing
    · rename_i hget
      exact .one _ _ hget

/-- What is handed out was kept under the reference, and is authorised. -/
theorem consume_eq_ok {p : InMemoryFormSubmissionProvider c} {reference : String} {instant : ℚ} {submission : FormSubmission c}
    (h : (p.consume reference instant).1 = .ok submission) :
    ∃ key, submission.authenticationRef = some key ∧ p.submissions.get? key = some submission ∧
      (p.consume reference instant).2 = p.without key := by
  rw [consume_eq] at h ⊢
  split at h
  · cases h
  · rename_i key _
    split at h
    · cases h
    · rename_i hget
      obtain ⟨_, -, hreturn⟩ := Except.bind_eq_ok.mp h
      cases hreturn
      exact ⟨key, p.keyed key _ hget, hget, rfl⟩

/-- After `consume` there is nothing under the reference. -/
theorem consume_gone {p : InMemoryFormSubmissionProvider c} {reference key : String} {instant : ℚ}
    (hkey : boundedReference reference "authentication_ref" = .ok key) :
    (p.consume reference instant).2.submissions.get? key = none := by
  rw [consume_eq, hkey]
  dsimp only
  split
  · assumption
  · show (p.submissions.erase key).get? key = none
    rw [Dict.get?_erase, if_pos rfl]

theorem resolveSubmission_meets (reference : String) (instant : ℚ) (s : Site a.codecs) :
    (resolveSubmission a reference instant).Meets s
      (fun submission t => t.run = s.run ∧ ∃ key, submission.authenticationRef = some key ∧
        s.provider.submissions.get? key = some submission ∧ t.provider = s.provider.without key)
      fun _ t => t.run = s.run ∧ Consumed s.provider t.provider := by
  rw [resolveSubmission, meets_bind, meets_get]
  show Program.Meets (modify _ >>= fun _ => ofExcept _) s _ _
  rw [meets_bind, meets_modify, meets_ofExcept]
  refine ⟨fun submission hok => ⟨rfl, consume_eq_ok (Except.mapError_eq_ok.mp hok)⟩, fun _ _ => ⟨rfl, ?_⟩⟩
  exact consume_consumed s.provider reference instant

theorem originOf_meets (url : String) {P : Site a.codecs → Prop} (h : P s) :
    (originOf a url).Meets s (fun origin t => t = s ∧ canonicalOrigin a.codecs url = some origin) fun _ t => P t := by
  rw [originOf, meets_ofOption]
  exact ⟨fun _ horigin => ⟨rfl, horigin⟩, fun _ => h⟩

/-- **The proposal of a call**: it is the one under the reference, which is left without, and its target
is on the origin of the request. -/
theorem takeProposal_meets (a : HttpAdapter) (reference : String) (r : Resolution) (instant : ℚ) (s : Site a.codecs) :
    (takeProposal a reference r instant).Meets s
      (fun submission t => SameRun s.run t.run ∧ s.provider.submissions.get? reference = some submission ∧
        t.provider = s.provider.without reference ∧ ∃ origin, canonicalOrigin a.codecs submission.target = some origin ∧
          OfOrigin a s.run.context.request origin)
      fun _ t => SameRun s.run t.run ∧ Consumed s.provider t.provider := by
  let Ended (t : Site a.codecs) : Prop := SameRun s.run t.run ∧ Consumed s.provider t.provider
  rw [takeProposal, meets_bind]
  apply (evaluateSessionPolicy_meets a r s).mono
  · intro normalizedTarget t ht
    obtain ⟨⟨hrun, hprovider⟩, hnormalized, hhttps⟩ := ht
    rw [meets_bind]
    apply (resolveSubmission_meets reference instant t).mono
    · intro submission u hu
      obtain ⟨hsame, key, hkey, hget, hleft⟩ := hu
      rw [hprovider] at hget hleft
      rw [← hsame] at hrun
      have hended : Ended u := ⟨hrun, hleft ▸ .one key submission hget⟩
      rw [meets_bind, meets_check]
      refine ⟨fun hreference => ?_, fun _ => hended⟩
      have hkey' : reference = key := by
        rw [hkey, beq_iff_eq, Option.some.injEq] at hreference
        exact hreference.symm
      rw [meets_bind]
      apply (originOf_meets submission.target (P := Ended) hended).mono
      · rintro origin _ ⟨rfl, horigin⟩
        rw [meets_bind]
        apply (originOf_meets normalizedTarget (P := Ended) hended).mono
        · rintro requestOrigin _ ⟨rfl, hrequestOrigin⟩
          rw [meets_bind, meets_when]
          refine ⟨fun _ => block_meets (P := Ended) hended, fun hsame => ?_⟩
          cases not_not.mp hsame
          rw [meets_pure, hkey']
          exact ⟨hrun, hget, hleft, origin, horigin, normalizedTarget, hnormalized, hhttps, hrequestOrigin⟩
        · exact fun _ _ h => h
      · exact fun _ _ h => h
    · intro _ u hu
      rw [hprovider] at hu
      exact ⟨hu.1 ▸ hrun, hu.2⟩
  · intro _ t ht
    exact ⟨ht.1, ht.2 ▸ .nothing⟩

/-- Once the target of the request has passed, nothing stays under the reference. -/
theorem takeProposal_gone {reference key : String} {instant : ℚ} (hkey : boundedReference reference "authentication_ref" = .ok key)
    {url : String} {t : Site a.codecs} (hpolicy : evaluateSessionPolicy a r s = (.ok url, t)) :
    (takeProposal a reference r instant s).2.provider.submissions.get? key = none := by
  let Gone (t : Site a.codecs) : Prop := t.provider.submissions.get? key = none
  rw [takeProposal, bind_of_ok hpolicy]
  apply Meets.state (P := Gone)
  have hgone : Gone {t with provider := (t.provider.consume reference instant).2} := consume_gone hkey
  rw [meets_bind, resolveSubmission, meets_bind, meets_get]
  show Program.Meets (modify _ >>= fun _ => ofExcept _) t _ _
  rw [meets_bind, meets_modify, meets_ofExcept]
  refine ⟨fun submission _ => ?_, fun _ _ => hgone⟩
  rw [meets_bind, meets_check]
  refine ⟨fun _ => ?_, fun _ => hgone⟩
  rw [meets_bind]
  apply (originOf_meets submission.target (P := Gone) hgone).mono
  · rintro origin _ ⟨rfl, -⟩
    rw [meets_bind]
    apply (originOf_meets url (P := Gone) hgone).mono
    · rintro requestOrigin _ ⟨rfl, -⟩
      rw [meets_bind, meets_when]
      exact ⟨fun _ => block_meets (P := Gone) hgone, fun _ => hgone⟩
    · exact fun _ _ h => h
  · exact fun _ _ h => h

/-! ### To the HTTP call -/

theorem evaluateFormActionPolicy_meets (submission : FormSubmission a.codecs) (r : Resolution) (s : Site a.codecs) :
    (evaluateFormActionPolicy a submission r).Meets s
      (fun _ t => (SameRun s.run t.run ∧ t.provider = s.provider) ∧
        a.policy.Accepts r.addresses submission.target (some s.run.context.request.target) submission.target)
      fun _ t => SameRun s.run t.run ∧ t.provider = s.provider := by
  rw [evaluateFormActionPolicy, meets_bind, meets_get, meets_bind]
  apply (evaluate_meets a _ _ r s).mono
  · intro url t ht
    rw [meets_check]
    refine ⟨fun hsame => ⟨ht.1, ?_⟩, fun _ => ht.1⟩
    rw [← beq_iff_eq.mp hsame] at ht ⊢
    exact ht.2
  · rintro _ _ rfl
    exact ⟨.refl _, rfl⟩

theorem contextCsrf_meets (a : HttpAdapter) (s : Site a.codecs) :
    (contextCsrf a).Meets s (fun token t => t = s ∧ token = s.run.csrfToken) fun _ t => t = s := by
  rw [contextCsrf, meets_bind, meets_get]
  cases htoken : s.run.csrfToken with
  | none => exact ⟨rfl, rfl⟩
  | some token =>
    dsimp only
    rw [meets_bind, meets_ofOption]
    refine ⟨fun sourceId _ => ?_, fun _ => rfl⟩
    rw [meets_bind, meets_check]
    exact ⟨fun _ => ⟨rfl, rfl⟩, fun _ => rfl⟩

theorem sameCsrfMaterial_eq_true {supplied extracted : CSRFTokenMaterial} (h : sameCsrfMaterial supplied extracted = .ok true) :
    supplied = extracted := by
  unfold sameCsrfMaterial compareDigest at h
  split at h
  · rename_i hsame
    split at h
    · simp only [Except.ok.injEq, decide_eq_true_eq] at h
      cases supplied
      cases extracted
      simp_all
    · cases h
  · cases h

/-- What a proposal is once the run has its say: the same but for the token. -/
structure BoundTo (token : Option CSRFTokenMaterial) (original submission : FormSubmission c) : Prop where
  target : submission.target = original.target
  fields : submission.fields = original.fields
  approval : submission.approval = original.approval
  csrf : submission.csrf = token
  own : original.csrf = none ∨ original.csrf = token

theorem bindCsrf_meets (hc : a.codecs.Idna) {submission : FormSubmission a.codecs}
    (hnormal : normalizeUrl a.codecs submission.target = some submission.target) (instant : ℚ) (s : Site a.codecs) :
    (bindCsrf a submission instant).Meets s (fun bound t => t = s ∧ BoundTo s.run.csrfToken submission bound) fun _ t => t = s := by
  unfold bindCsrf
  rw [meets_bind]
  apply (contextCsrf_meets a s).mono
  · rintro token _ ⟨rfl, rfl⟩
    split
    · exact rfl
    · rename_i supplied extracted hsupplied hextracted
      rw [meets_bind, meets_ofExcept]
      refine ⟨fun same hsame => ?_, fun _ _ => rfl⟩
      rw [meets_bind, meets_check]
      refine ⟨fun htrue => ⟨rfl, ?_⟩, fun _ => rfl⟩
      rw [Except.mapError_eq_ok, htrue] at hsame
      rw [sameCsrfMaterial_eq_true hsame, ← hextracted] at hsupplied
      exact ⟨rfl, rfl, rfl, hsupplied, .inr hsupplied⟩
    · rename_i extracted hnone hextracted
      rw [meets_ofExcept]
      refine ⟨fun bound hbound => ⟨rfl, ?_⟩, fun _ _ => rfl⟩
      obtain ⟨htarget, hfields, hcsrf, happroval⟩ := create_eq_ok (Except.mapError_eq_ok.mp hbound)
      exact ⟨httpsUrl_of_normal hc hnormal htarget, hfields, happroval, hcsrf.trans hextracted.symm, .inl hnone⟩
    · rename_i hnone hextracted
      exact ⟨rfl, rfl, rfl, rfl, hnone.trans hextracted.symm, .inl hnone⟩
  · exact fun _ _ h => h

/-- A call with a proposal that may go out as it is. -/
structure Ready (a : HttpAdapter) (request : FetchRequest) (token : Option CSRFTokenMaterial) (original : FormSubmission a.codecs)
    (r : Resolution) (clock : Nat → ℚ) (p : Prepared a) : Prop where
  bound : BoundTo token original p.submission
  accepted : a.policy.Accepts r.addresses original.target (some request.target) original.target
  authorized : p.submission.AuthorizedAt (clock 2)
  builtAt : p.builtAt = clock 2
  payload : p.payload = p.submission.fieldsWithToken

/-- **The HTTP call of a proposal**: what was asked for, where the policy lets it, while it is approved. -/
theorem prepareCall_meets (hc : a.codecs.Idna) (submission : FormSubmission a.codecs) (r : Resolution) (clock : Nat → ℚ)
    (s : Site a.codecs) :
    (prepareCall a submission r clock).Meets s
      (fun p t => (SameRun s.run t.run ∧ t.provider = s.provider) ∧
        Ready a s.run.context.request s.run.csrfToken submission r clock p)
      fun _ t => SameRun s.run t.run ∧ t.provider = s.provider := by
  rw [prepareCall, meets_bind]
  apply (evaluateFormActionPolicy_meets submission r s).mono
  · intro _ t ht
    obtain ⟨hkept, haccepted⟩ := ht
    rw [meets_bind]
    apply (bindCsrf_meets hc haccepted.normalized (clock 0) t).mono
    · rintro bound _ ⟨rfl, hbound⟩
      rw [hkept.1.token] at hbound
      rw [meets_bind, meets_ofExcept]
      refine ⟨fun _ _ => ?_, fun _ _ => hkept⟩
      rw [meets_bind, meets_ofExcept]
      refine ⟨fun payload hpayload => ?_, fun _ _ => hkept⟩
      rw [meets_bind, meets_get, meets_pure]
      obtain ⟨_, hauthorized, hreturn⟩ := Except.bind_eq_ok.mp (Except.mapError_eq_ok.mp hpayload)
      cases hreturn
      exact ⟨hkept, hbound, haccepted, assertAuthorized_eq_ok.mp hauthorized, rfl, rfl⟩
    · rintro _ _ rfl
      exact hkept
  · exact fun _ _ h => h

/-- What the HTTP call of a proposal puts on the wire: its body goes out first, and no other. -/
theorem exchange_httpCall {p : Prepared a} {world : World} {ctx : ExecutionContext} {validated : ValidatedAddresses}
    {before after : List Sent} {x : Sent} (hsplit : (exchange a p.httpCall world ctx validated).sent = before ++ x :: after)
    (hbody : x.body ≠ none) :
    before = [] ∧ normalizeUrl a.codecs p.submission.target = some x.url ∧
      x.method = normalizedMethod a.codecs p.submission.method ∧ x.body = some (encodedPayload p.payload) := by
  obtain ⟨hfirst, hurl, hbears, headers, hinitial⟩ := exchange_body hsplit hbody
  refine ⟨hfirst, hurl, ?_, hbears⟩
  obtain ⟨spec, -, hinitial⟩ := Except.bind_eq_ok.mp hinitial
  obtain ⟨method, hmethod, hinitial⟩ := Except.bind_eq_ok.mp hinitial
  obtain ⟨_, -, hreturn⟩ := Except.bind_eq_ok.mp hinitial
  cases hreturn
  simp only [overriddenMethod, Prepared.httpCall] at hmethod
  split at hmethod
  · exact (Except.ok.inj hmethod).symm
  · cases hmethod

end

end Fetech.AuthAdapter
