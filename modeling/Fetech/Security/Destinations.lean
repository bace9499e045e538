import Fetech.Security.NormalForm
import Fetech.Documents

/-! What it means that the destination policy lets a target through (`fetech/security.py`,
`SafeURLPolicy.evaluate`).

The URL that comes back should be one the policy vouches for: its port as written, its host
and the addresses recorded for it; and a target that does not come back should be refused as
a policy violation. `evaluate` takes its URL apart a second time, and there a port 0 counts
as none, a bracket or a dot the host codec brought in changes what is read, and a
`ValueError`, the resolver's `UnicodeError` among them, is no refusal. -/
namespace Fetech.SafeUrlPolicy
open Lib.Url Lib.Except

variable (p : SafeUrlPolicy)

/-- The host that `evaluate` looks at. -/
def hostOf (parts : SplitResult) : String := String.ofList (parts.hostname p.codecs.toTables)

/-- The port that `evaluate` looks at: 0 counts as no port. -/
def portOf (parts : SplitResult) (written : Option Nat) : Nat :=
  (written.filter (· ≠ 0)).getD (defaultPort parts.scheme)

/-- The addresses recorded for a host are there, and public. -/
def Validated (validated : ValidatedAddresses) (host : List Char) : Prop :=
  ValidatedAddresses.of p.codecs validated host ≠ [] ∧
    ∀ address ∈ ValidatedAddresses.of p.codecs validated host, p.isPublicAddress address = true

/-- What a URL that is let through is held to be. -/
def Vouched (validated : ValidatedAddresses) (url : String) : Prop :=
  ∃ parts written, urlsplit p.codecs.toTables url.toList = some parts ∧
    (parts.scheme = "http".toList ∨ parts.scheme = "https".toList) ∧ '@' ∉ parts.netloc ∧ parts.port = some written ∧
    written.getD (defaultPort parts.scheme) ∈ p.allowedPorts ∧
    p.hostOf parts ∉ blockedHostnames ++ p.blockedThreatHostnames ∧ (p.hostOf parts).endsWith ".localhost" = false ∧
    p.Validated validated (parts.hostname p.codecs.toTables)

/-- The promise of `evaluate`: what it returns is vouched for, and what it raises is a refusal. -/
structure Keeps (validated : ValidatedAddresses) (addresses : String → Nat → List String) (target : String)
    (previousUrl : Option String) : Prop where
  returned : ∀ url decisions validated', p.evaluate validated addresses target previousUrl =
    .ok (url, decisions, validated') → p.Vouched validated' url
  raised : ∀ error, p.evaluate validated addresses target previousUrl = .error error →
    ∃ reason decisions, error = .blocked reason decisions

/-! ### What `evaluate` looks at -/

/-- A URL that was fetched before can be taken apart. -/
def ReadsPrevious (previousUrl : Option String) : Prop :=
  ∀ previous ∈ previousUrl.filter (!·.isEmpty), urlsplit p.codecs.toTables previous.toList ≠ none

/-- A destination that is refused whatever its port is. -/
def Barred (previousUrl : Option String) (parts : SplitResult) : Prop :=
  (∃ previous ∈ previousUrl.filter (!·.isEmpty), ∃ before, urlsplit p.codecs.toTables previous.toList = some before ∧
    before.scheme = "https".toList ∧ parts.scheme = "http".toList) ∨
  (parts.scheme = "http".toList ∧ p.allowPublicHttp = false) ∨
  p.hostOf parts ∈ blockedHostnames ++ p.blockedThreatHostnames ∨ (p.hostOf parts).endsWith ".localhost" = true

/-- A port that is allowed, at which the host has public addresses only. -/
def Reachable (addresses : String → Nat → List String) (host : String) (port : Nat) : Prop :=
  port ∈ p.allowedPorts ∧ addresses host port ≠ [] ∧ ∀ address ∈ addresses host port, p.isPublicAddress address = true

/-- How the checks before the resolver end. -/
inductive Checked (previousUrl : Option String) (parts : SplitResult) : Except PolicyError (String × Nat) → Prop
  | unread (h : ¬p.ReadsPrevious previousUrl) : Checked previousUrl parts (.error .value)
  | barred (hread : p.ReadsPrevious previousUrl) (h : p.Barred previousUrl parts) (reason : String)
      (decisions : List PolicyDecision) : Checked previousUrl parts (.error (.blocked reason decisions))
  | portless (hread : p.ReadsPrevious previousUrl) (hfree : ¬p.Barred previousUrl parts) (h : parts.port = none) :
      Checked previousUrl parts (.error .value)
  | closed (hread : p.ReadsPrevious previousUrl) (hfree : ¬p.Barred previousUrl parts) (written : Option Nat)
      (hwritten : parts.port = some written) (h : portOf parts written ∉ p.allowedPorts) (reason : String)
      (decisions : List PolicyDecision) : Checked previousUrl parts (.error (.blocked reason decisions))
  | passed (hread : p.ReadsPrevious previousUrl) (hfree : ¬p.Barred previousUrl parts) (written : Option Nat)
      (hwritten : parts.port = some written) (h : portOf parts written ∈ p.allowedPorts) :
      Checked previousUrl parts (.ok (p.hostOf parts, portOf parts written))

/-- The first check: whether the previous URL forbids this one. -/
def checkPrevious (parts : SplitResult) (previousUrl : Option String) : Except PolicyError Unit :=
  match previousUrl.filter (!·.isEmpty) with
  | some previous => do
    let previous ← ofOption .value (urlsplit p.codecs.toTables previous.toList)
    require (!(previous.scheme = "https".toList ∧ parts.scheme = "http".toList))
      (block "redirect_security" "HTTPS downgrade redirects are forbidden")
  | none => pure ()

/-- The checks of scheme, host and port. -/
def checkSite (parts : SplitResult) : Except PolicyError (String × Nat) := do
  require (!(parts.scheme = "http".toList ∧ !p.allowPublicHttp))
    (block "url_validation" "public HTTP is disabled by the selected policy")
  require (!(blockedHostnames.contains (p.hostOf parts) || (p.hostOf parts).endsWith ".localhost"))
    (block "ssrf_private_ip_check" "local and metadata hostnames are blocked")
  require (!p.blockedThreatHostnames.contains (p.hostOf parts))
    (block "malware_phishing_check" "destination is present in the configured malware/phishing deny-list")
  let written ← ofOption .value parts.port
  require (p.allowedPorts.contains (portOf parts written))
    (block "ssrf_private_ip_check" ("destination port " ++ toString (portOf parts written) ++ " is not allowed"))
  return (p.hostOf parts, portOf parts written)

/-- What is left to do with the addresses that the host resolved to. -/
def settle (validated : ValidatedAddresses) (normalized host : String) (resolved : List String) :
    Except PolicyError (String × List PolicyDecision × ValidatedAddresses) := do
  require (!resolved.isEmpty) (block "dns_resolution_check" "hostname did not resolve")
  require (resolved.all p.isPublicAddress)
    (block "ssrf_private_ip_check" "destination resolved to a non-public address")
  let destination ← ofOption .value (p.sanitizeUrl normalized)
  let passed policyId reason : PolicyDecision := {policyId, allowed := true, reason, destination := some destination}
  return (normalized, [
    passed "url_validation" "valid HTTP(S) target",
    passed "dns_resolution_check" "hostname resolved",
    passed "ssrf_private_ip_check" "all resolved addresses are public",
    passed "malware_phishing_check" "destination is not in the configured threat deny-list"],
    validated.set host resolved)

section
variable {p} {validated : ValidatedAddresses} {addresses : String → Nat → List String} {target : String}
  {previousUrl : Option String} {parts : SplitResult}

theorem checkDestination_eq :
    p.checkDestination parts previousUrl = p.checkPrevious parts previousUrl >>= fun _ => p.checkSite parts := by
  unfold checkDestination checkPrevious
  cases previousUrl.filter (!·.isEmpty) with
  | none => rfl
  | some previous => exact (bind_assoc _ _ _).symm

theorem require_false {ok : Bool} {err : PolicyError} (h : ok = false) : require ok err = .error err := by
  rw [h]
  rfl

theorem require_true {ok : Bool} {err : PolicyError} (h : ok = true) : require ok err = .ok () := by
  rw [h]
  rfl

theorem require_bind_false {α : Type} {ok : Bool} {err : PolicyError} {f : Unit → Except PolicyError α} (h : ok = false) :
    (require ok err >>= f) = .error err := by
  rw [require_false h]
  rfl

theorem require_bind_true {α : Type} {ok : Bool} {err : PolicyError} {f : Unit → Except PolicyError α} (h : ok = true) :
    (require ok err >>= f) = f () := by
  rw [require_true h]
  rfl

variable (p previousUrl parts) in
theorem checkPrevious_cases :
    (p.checkPrevious parts previousUrl = .error .value ∧ ¬p.ReadsPrevious previousUrl) ∨
    ((∃ reason decisions, p.checkPrevious parts previousUrl = .error (.blocked reason decisions)) ∧
      p.ReadsPrevious previousUrl ∧ p.Barred previousUrl parts) ∨
    (p.checkPrevious parts previousUrl = .ok () ∧ p.ReadsPrevious previousUrl ∧
      ∀ previous ∈ previousUrl.filter (!·.isEmpty), ∀ before, urlsplit p.codecs.toTables previous.toList = some before →
        ¬(before.scheme = "https".toList ∧ parts.scheme = "http".toList)) := by
  unfold checkPrevious ReadsPrevious Barred
  cases previousUrl.filter (!·.isEmpty) with
  | none =>
    refine .inr (.inr ⟨rfl, ?_, ?_⟩)
    · intro previous hprevious
      cases hprevious
    · intro previous hprevious
      cases hprevious
  | some previous =>
    cases hbefore : urlsplit p.codecs.toTables previous.toList with
    | none => exact .inl ⟨by simp [hbefore, ofOption]; rfl, fun hread => hread previous rfl hbefore⟩
    | some before =>
      have hread : ∀ previous' ∈ some previous, urlsplit p.codecs.toTables previous'.toList ≠ none := by
        intro previous' hprevious
        cases hprevious
        rw [hbefore]
        exact Option.some_ne_none before
      have hstep : (ofOption PolicyError.value (urlsplit p.codecs.toTables previous.toList) >>= fun before =>
          require (!(before.scheme = "https".toList ∧ parts.scheme = "http".toList))
            (block "redirect_security" "HTTPS downgrade redirects are forbidden")) =
          require (!(before.scheme = "https".toList ∧ parts.scheme = "http".toList))
            (block "redirect_security" "HTTPS downgrade redirects are forbidden") := by
        rw [hbefore]
        rfl
      by_cases hdown : before.scheme = "https".toList ∧ parts.scheme = "http".toList
      · have hblocked := hstep.trans (require_false (by rw [decide_eq_true hdown]; rfl))
        exact .inr (.inl ⟨⟨_, _, hblocked⟩, hread, .inl ⟨previous, rfl, before, hbefore, hdown⟩⟩)
      · have hpassed := hstep.trans (require_true (by rw [decide_eq_false hdown]; rfl))
        refine .inr (.inr ⟨hpassed, hread, fun previous' hprevious before' hbefore' => ?_⟩)
        cases hprevious
        cases hbefore.symm.trans hbefore'
        exact hdown

/-- **How the checks before the resolver end**: each of them on its own ground. -/
theorem checkDestination_checked : p.Checked previousUrl parts (p.checkDestination parts previousUrl) := by
  rw [checkDestination_eq]
  obtain ⟨hcheck, hunread⟩ | ⟨⟨reason, decisions, hcheck⟩, hread, hbarred⟩ | ⟨hcheck, hread, hkeeps⟩ :=
    p.checkPrevious_cases previousUrl parts
  · rw [hcheck]
    exact .unread hunread
  · rw [hcheck]
    exact .barred hread hbarred reason decisions
  rw [hcheck]
  show p.Checked previousUrl parts (p.checkSite parts)
  unfold checkSite
  by_cases hhttp : parts.scheme = "http".toList ∧ (!p.allowPublicHttp) = true
  · rw [require_bind_false (by rw [decide_eq_true hhttp]; rfl)]
    exact .barred hread (.inr (.inl ⟨hhttp.1, by simpa using hhttp.2⟩)) _ _
  rw [require_bind_true (by rw [decide_eq_false hhttp]; rfl)]
  cases hlocal : blockedHostnames.contains (p.hostOf parts) || (p.hostOf parts).endsWith ".localhost" with
  | true =>
    rw [require_bind_false (show (!true) = false from rfl)]
    refine .barred hread (.inr (.inr ?_)) _ _
    obtain hmem | hend := Bool.or_eq_true_iff.mp hlocal
    · exact .inl (List.mem_append_left _ (by simpa using hmem))
    · exact .inr hend
  | false =>
    rw [require_bind_true (show (!false) = true from rfl)]
    cases hthreat : p.blockedThreatHostnames.contains (p.hostOf parts) with
    | true =>
      rw [require_bind_false (show (!true) = false from rfl)]
      exact .barred hread (.inr (.inr (.inl (List.mem_append_right _ (by simpa using hthreat))))) _ _
    | false =>
      rw [require_bind_true (show (!false) = true from rfl)]
      obtain ⟨hnolocal, hnoend⟩ := Bool.or_eq_false_iff.mp hlocal
      have hfree : ¬p.Barred previousUrl parts := by
        intro hbarred
        obtain ⟨previous, hprevious, before, hbefore, hdown⟩ | ⟨hscheme, hallow⟩ | hmem | hend := hbarred
        · exact hkeeps previous hprevious before hbefore hdown
        · exact hhttp ⟨hscheme, by rw [hallow]; rfl⟩
        · obtain hmem | hmem := List.mem_append.mp hmem
          · simp [hmem] at hnolocal
          · simp [hmem] at hthreat
        · rw [hend] at hnoend
          cases hnoend
      cases hwritten : parts.port with
      | none => exact .portless hread hfree hwritten
      | some written =>
        show p.Checked previousUrl parts (require (p.allowedPorts.contains (portOf parts written)) _ >>= fun _ => _)
        cases hallowed : p.allowedPorts.contains (portOf parts written) with
        | true =>
          rw [require_bind_true rfl]
          exact .passed hread hfree written hwritten (by simpa using hallowed)
        | false =>
          rw [require_bind_false rfl]
          exact .closed hread hfree written hwritten (by simpa using hallowed) _ _

theorem evaluate_checked {url : String} (hurl : normalizeUrl p.codecs target = some url)
    (hparts : urlsplit p.codecs.toTables url.toList = some parts) :
    p.evaluate validated addresses target previousUrl =
      p.checkDestination parts previousUrl >>= fun site => p.resolve addresses site.1 site.2 >>= fun resolved =>
        p.settle validated url site.1 resolved := by
  show (ofOption _ (normalizeUrl p.codecs target) >>= fun normalized =>
    ofOption PolicyError.value (urlsplit p.codecs.toTables normalized.toList) >>= fun parts =>
      p.checkDestination parts previousUrl >>= fun site => p.resolve addresses site.1 site.2 >>= fun resolved =>
        p.settle validated normalized site.1 resolved) = _
  rw [hurl]
  show (ofOption PolicyError.value (urlsplit p.codecs.toTables url.toList) >>= fun parts =>
      p.checkDestination parts previousUrl >>= fun site => p.resolve addresses site.1 site.2 >>= fun resolved =>
        p.settle validated url site.1 resolved) = _
  rw [hparts]
  rfl

theorem evaluate_unparsed {url : String} (hurl : normalizeUrl p.codecs target = some url)
    (hparts : urlsplit p.codecs.toTables url.toList = none) :
    p.evaluate validated addresses target previousUrl = .error .value := by
  rw [evaluate, hurl]
  show (ofOption PolicyError.value (urlsplit p.codecs.toTables url.toList) >>= fun parts => _) = _
  rw [hparts]
  rfl

/-- The addresses of a host decide over what has passed the other checks. -/
theorem settle_cases (validated : ValidatedAddresses) {url : String} (host : String) (resolved : List String)
    (hshown : (p.sanitizeUrl url).isSome = true) :
    (¬(resolved ≠ [] ∧ ∀ address ∈ resolved, p.isPublicAddress address = true) ∧
      ∃ reason decisions, p.settle validated url host resolved = .error (.blocked reason decisions)) ∨
    ((resolved ≠ [] ∧ ∀ address ∈ resolved, p.isPublicAddress address = true) ∧
      ∃ decisions, p.settle validated url host resolved = .ok (url, decisions, validated.set host resolved)) := by
  obtain ⟨destination, hdestination⟩ := Option.isSome_iff_exists.mp hshown
  unfold settle
  cases hempty : resolved.isEmpty with
  | true =>
    rw [require_bind_false (show (!true) = false from rfl)]
    exact .inl ⟨fun h => h.1 (List.isEmpty_iff.mp hempty), _, _, rfl⟩
  | false =>
    rw [require_bind_true (show (!false) = true from rfl)]
    cases hpublic : resolved.all p.isPublicAddress with
    | false =>
      rw [require_bind_false rfl]
      refine .inl ⟨fun h => ?_, _, _, rfl⟩
      rw [List.all_eq_true.mpr h.2] at hpublic
      cases hpublic
    | true =>
      rw [require_bind_true rfl, hdestination]
      refine .inr ⟨⟨fun hnil => ?_, List.all_eq_true.mp hpublic⟩, _, rfl⟩
      rw [hnil] at hempty
      cases hempty

variable (p) in
/-- Nothing but a refusal is raised: the normal form of the target and the URL before it can be taken apart,
and where it comes to that, the host has a form that the resolver is asked in and the URL one that is shown. -/
def ReadsDestination (addresses : String → Nat → List String) (target : String) (previousUrl : Option String) : Prop :=
  ∀ url, normalizeUrl p.codecs target = some url → p.ReadsPrevious previousUrl ∧
    ∃ parts, urlsplit p.codecs.toTables url.toList = some parts ∧ (¬p.Barred previousUrl parts →
      ∃ written, parts.port = some written ∧ (portOf parts written ∈ p.allowedPorts →
        (p.codecs.idna (parts.hostname p.codecs.toTables)).isSome = true ∧
          (p.Reachable addresses (p.hostOf parts) (portOf parts written) → (p.sanitizeUrl url).isSome = true)))

theorem blocked_ne_value {α : Type} (reason : String) (decisions : List PolicyDecision) :
    (.error (.blocked reason decisions) : Except PolicyError α) ≠ .error .value := fun h => by cases h

/-- What is raised after the checks before the resolver. -/
theorem resolve_settle_value_iff {url : String} {port : Nat} (hallowed : port ∈ p.allowedPorts) :
    (p.resolve addresses (p.hostOf parts) port >>= p.settle validated url (p.hostOf parts)) ≠ .error .value ↔
      (p.codecs.idna (parts.hostname p.codecs.toTables)).isSome = true ∧
        (p.Reachable addresses (p.hostOf parts) port → (p.sanitizeUrl url).isSome = true) := by
  have hhost : (p.hostOf parts).toList = parts.hostname p.codecs.toTables := String.toList_ofList
  rw [resolve, hhost]
  cases p.codecs.idna (parts.hostname p.codecs.toTables) with
  | none => exact iff_of_false (fun h => h rfl) (fun h => Bool.false_ne_true h.1)
  | some encoded =>
    show p.settle validated url (p.hostOf parts) (addresses (p.hostOf parts) port) ≠ .error .value ↔ _
    refine Iff.trans ?_ (and_iff_right rfl).symm
    cases hshown : (p.sanitizeUrl url).isSome with
    | true =>
      refine iff_of_true (fun h => ?_) fun _ => rfl
      obtain ⟨-, reason, decisions, hsettle⟩ | ⟨-, decisions, hsettle⟩ :=
        settle_cases validated (p.hostOf parts) (addresses (p.hostOf parts) port) hshown
      · cases hsettle.symm.trans h
      · cases hsettle.symm.trans h
    | false =>
      have hnone : p.sanitizeUrl url = none := Option.not_isSome_iff_eq_none.mp (Bool.not_eq_true _ ▸ hshown)
      unfold settle Reachable
      cases hempty : (addresses (p.hostOf parts) port).isEmpty with
      | true =>
        rw [require_bind_false (show (!true) = false from rfl)]
        exact iff_of_true (blocked_ne_value _ _) fun h => absurd (List.isEmpty_iff.mp hempty) h.2.1
      | false =>
        rw [require_bind_true (show (!false) = true from rfl)]
        cases hpublic : (addresses (p.hostOf parts) port).all p.isPublicAddress with
        | false =>
          rw [require_bind_false rfl]
          refine iff_of_true (blocked_ne_value _ _) fun h => ?_
          rw [List.all_eq_true.mpr h.2.2] at hpublic
          cases hpublic
        | true =>
          rw [require_bind_true rfl, hnone]
          refine iff_of_false (fun h => h rfl) fun h => Bool.false_ne_true (h ⟨hallowed, ?_, List.all_eq_true.mp hpublic⟩)
          exact List.isEmpty_eq_false_iff.mp hempty

/-- **When `evaluate` raises nothing but a refusal.** -/
theorem evaluate_value_iff (validated : ValidatedAddresses) :
    p.evaluate validated addresses target previousUrl ≠ .error .value ↔ p.ReadsDestination addresses target previousUrl := by
  unfold ReadsDestination
  cases hurl : normalizeUrl p.codecs target with
  | none =>
    rw [evaluate, hurl]
    exact iff_of_true (blocked_ne_value _ _) fun url h => by cases h
  | some url =>
    simp only [Option.some.injEq, forall_eq']
    cases hparts : urlsplit p.codecs.toTables url.toList with
    | none =>
      refine iff_of_false (fun h => h (evaluate_unparsed hurl hparts)) fun h => ?_
      obtain ⟨-, parts, hsplit, -⟩ := h
      cases hsplit
    | some parts =>
      simp only [Option.some.injEq, exists_eq_left']
      have heval : p.evaluate validated addresses target previousUrl = p.checkDestination parts previousUrl >>=
          fun site => p.resolve addresses site.1 site.2 >>= fun resolved => p.settle validated url site.1 resolved :=
        evaluate_checked hurl hparts
      have hchecked : p.Checked previousUrl parts (p.checkDestination parts previousUrl) := checkDestination_checked
      generalize p.checkDestination parts previousUrl = result at hchecked heval
      rw [heval]
      cases hchecked with
      | unread hunread => exact iff_of_false (fun h => h rfl) fun h => hunread h.1
      | barred hread hbarred reason decisions =>
        exact iff_of_true (blocked_ne_value _ _) ⟨hread, fun hfree => absurd hbarred hfree⟩
      | portless hread hfree hport =>
        refine iff_of_false (fun h => h rfl) fun h => ?_
        obtain ⟨written, hwritten, -⟩ := h.2 hfree
        cases hport.symm.trans hwritten
      | closed hread hfree written hwritten hclosed reason decisions =>
        exact iff_of_true (blocked_ne_value _ _)
          ⟨hread, fun _ => ⟨written, hwritten, fun hopen => absurd hopen hclosed⟩⟩
      | passed hread hfree written hwritten hallowed =>
        refine (resolve_settle_value_iff hallowed).trans
          ⟨fun h => ⟨hread, fun _ => ⟨written, hwritten, fun _ => h⟩⟩, fun h => ?_⟩
        obtain ⟨written', hwritten', hopen⟩ := h.2 hfree
        cases hwritten.symm.trans hwritten'
        exact hopen hallowed

/-! ### Where the promise is kept -/

variable (p) in
/-- What a destination must not have if it is let through: a port 0 that is not allowed, and a
host with a dot at its end, whose addresses are looked up without it. -/
structure Plain (validated : ValidatedAddresses) (parts : SplitResult) (written : Option Nat) : Prop where
  port : written = some 0 → 0 ∈ p.allowedPorts
  host : (parts.hostname p.codecs.toTables).getLast? = some '.' → p.Validated validated (parts.hostname p.codecs.toTables)

variable (p) in
/-- Nothing slips: the normal form of the target and the URL before it can be taken apart, the host
has a form that the resolver is asked in if it comes to that, and a destination that is let through is a
plain one. -/
def Tight (validated : ValidatedAddresses) (addresses : String → Nat → List String) (target : String)
    (previousUrl : Option String) : Prop :=
  ∀ url, normalizeUrl p.codecs target = some url → p.ReadsPrevious previousUrl ∧
    ∃ parts, urlsplit p.codecs.toTables url.toList = some parts ∧ (¬p.Barred previousUrl parts →
      ∃ written, parts.port = some written ∧ (portOf parts written ∈ p.allowedPorts →
        labelsOk (parts.hostname p.codecs.toTables) = true ∧
          (p.Reachable addresses (p.hostOf parts) (portOf parts written) → p.Plain validated parts written)))

theorem mem_allowed_iff {written : Option Nat} (h : portOf parts written ∈ p.allowedPorts) :
    written.getD (defaultPort parts.scheme) ∈ p.allowedPorts ↔ (written = some 0 → 0 ∈ p.allowedPorts) := by
  cases written with
  | none => exact ⟨fun _ hzero => (Option.some_ne_none 0 hzero.symm).elim, fun _ => h⟩
  | some n =>
    by_cases hn : n = 0
    · rw [hn]
      exact ⟨fun hmem _ => hmem, fun hmem => hmem rfl⟩
    · have hport : portOf parts (some n) = n := by simp [portOf, Option.filter, hn]
      rw [hport] at h
      exact ⟨fun _ hzero => absurd (Option.some.inj hzero) hn, fun _ => h⟩

/-- The addresses that were just recorded are found unless the host ends with a dot. -/
theorem validated_set (validated : ValidatedAddresses) {host : List Char} {resolved : List String}
    (hlower : p.codecs.lower host = host)
    (hresolved : resolved ≠ [] ∧ ∀ address ∈ resolved, p.isPublicAddress address = true) :
    p.Validated (validated.set (String.ofList host) resolved) host ↔
      (host.getLast? = some '.' → p.Validated validated host) := by
  unfold Validated ValidatedAddresses.of
  rw [hlower, Lib.Dict.getD_set]
  by_cases hdot : host.getLast? = some '.'
  · have hne : String.ofList (rstrip '.' host) ≠ String.ofList host := by
      intro hsame
      have hstripped : host.rdropWhile (· == '.') = host := String.ofList_injective hsame
      obtain ⟨start, rfl⟩ := List.getLast?_eq_some_iff.mp hdot
      exact List.rdropWhile_eq_self_iff.mp hstripped (by simp) (by simp)
    rw [if_neg hne]
    exact ⟨fun h _ => h, fun h => h hdot⟩
  · have hsame : rstrip '.' host = host := by
      refine List.rdropWhile_eq_self_iff.mpr fun hne hlast => hdot ?_
      rw [List.getLast?_eq_some_getLast hne, eq_of_beq hlast]
    rw [hsame, if_pos rfl]
    exact ⟨fun _ h => absurd h hdot, fun _ => hresolved⟩

/-- The resolver encodes the host of a normal form if its labels are neither empty nor too long. -/
theorem resolve_normal (addresses : String → Nat → List String) {url : String} (port : Nat) (hc : p.codecs.Idna)
    (hurl : normalizeUrl p.codecs target = some url) (hparts : urlsplit p.codecs.toTables url.toList = some parts) :
    p.resolve addresses (p.hostOf parts) port =
      if labelsOk (parts.hostname p.codecs.toTables) then .ok (addresses (p.hostOf parts) port) else .error .value := by
  obtain ⟨read, encoded, written, hread, rfl⟩ := normalizeUrl_iff.mp hurl
  have hnormal : parts = normalForm p.codecs read encoded written := by
    rw [String.toList_ofList, hread.urlsplit_url hc, Option.ite_none_right_eq_some] at hparts
    exact (Option.some.inj hparts.2).symm
  have hascii : isAscii (parts.hostname p.codecs.toTables) = true := by
    obtain ⟨hname, hascii, -⟩ := hread.hostname_normal hc
    rw [hnormal, hname]
    exact hascii
  rw [resolve, hostOf, String.toList_ofList, hc.ofAscii hascii]
  split
  · rfl
  · rfl

/-- What was let through is vouched for if the destination is plain. -/
theorem vouched_iff (validated : ValidatedAddresses) {url : String} {written : Option Nat} (hc : p.codecs.Idna)
    (hurl : normalizeUrl p.codecs target = some url) (hparts : urlsplit p.codecs.toTables url.toList = some parts)
    (hfree : ¬p.Barred previousUrl parts) (hwritten : parts.port = some written)
    (hreach : p.Reachable addresses (p.hostOf parts) (portOf parts written)) :
    p.Vouched (validated.set (p.hostOf parts) (addresses (p.hostOf parts) (portOf parts written))) url ↔
      p.Plain validated parts written := by
  obtain ⟨read, encoded, port, hread, rfl⟩ := normalizeUrl_iff.mp hurl
  have hnormal : parts = normalForm p.codecs read encoded port := by
    rw [String.toList_ofList, hread.urlsplit_url hc, Option.ite_none_right_eq_some] at hparts
    exact (Option.some.inj hparts.2).symm
  have hat : '@' ∉ parts.netloc := hnormal ▸ hread.at_notMem_normal hc
  have hlower : p.codecs.lower (parts.hostname p.codecs.toTables) = parts.hostname p.codecs.toTables := by
    obtain ⟨hname, hascii, hsame⟩ := hread.hostname_normal hc
    rw [hnormal, hname, p.codecs.lower_ascii _ hascii, hsame]
  have hports := mem_allowed_iff hreach.1
  have hhost := validated_set validated hlower hreach.2
  constructor
  · rintro ⟨parts', written', hparts', -, -, hwritten', hallowed, -, -, hvalidated⟩
    cases hparts.symm.trans hparts'
    cases hwritten.symm.trans hwritten'
    exact ⟨hports.mp hallowed, hhost.mp hvalidated⟩
  · intro h
    refine ⟨parts, written, hparts, scheme_of_normalized hurl hparts, hat, hwritten, hports.mpr h.port, ?_, ?_,
      hhost.mpr h.host⟩
    · exact fun hmem => hfree (.inr (.inr (.inl hmem)))
    · rw [Bool.eq_false_iff]
      exact fun hend => hfree (.inr (.inr (.inr hend)))

/-! How `evaluate` ended decides over the promise. -/

theorem keeps_of_blocked {reason : String} {decisions : List PolicyDecision}
    (heval : p.evaluate validated addresses target previousUrl = .error (.blocked reason decisions)) :
    p.Keeps validated addresses target previousUrl := by
  refine ⟨fun url decisions' validated' hok => ?_, fun error herror => ?_⟩
  · cases heval.symm.trans hok
  · cases heval.symm.trans herror
    exact ⟨reason, decisions, rfl⟩

theorem not_keeps_of_value (heval : p.evaluate validated addresses target previousUrl = .error .value) :
    ¬p.Keeps validated addresses target previousUrl := by
  intro hkeeps
  obtain ⟨reason, decisions, h⟩ := hkeeps.raised _ heval
  cases h

theorem keeps_iff_of_returned {url : String} {decisions : List PolicyDecision} {validated' : ValidatedAddresses}
    (heval : p.evaluate validated addresses target previousUrl = .ok (url, decisions, validated')) :
    p.Keeps validated addresses target previousUrl ↔ p.Vouched validated' url := by
  refine ⟨fun h => h.returned _ _ _ heval, fun h => ⟨fun url' decisions' validated'' hok => ?_, fun error herror => ?_⟩⟩
  · cases heval.symm.trans hok
    exact h
  · cases heval.symm.trans herror

/-- What is left to ask of a normal form that can be taken apart. -/
theorem tight_iff {url : String} (hurl : normalizeUrl p.codecs target = some url)
    (hparts : urlsplit p.codecs.toTables url.toList = some parts) :
    p.Tight validated addresses target previousUrl ↔ p.ReadsPrevious previousUrl ∧ (¬p.Barred previousUrl parts →
      ∃ written, parts.port = some written ∧ (portOf parts written ∈ p.allowedPorts →
        labelsOk (parts.hostname p.codecs.toTables) = true ∧
          (p.Reachable addresses (p.hostOf parts) (portOf parts written) → p.Plain validated parts written))) := by
  constructor
  · intro h
    obtain ⟨hread, parts', hparts', hrest⟩ := h url hurl
    cases hparts.symm.trans hparts'
    exact ⟨hread, hrest⟩
  · rintro ⟨hread, hrest⟩ url' hurl'
    cases hurl.symm.trans hurl'
    exact ⟨hread, parts, hparts, hrest⟩

/-- The promise about a destination that has passed the checks before the resolver. -/
theorem keeps_iff_of_passed {url : String} {written : Option Nat} (hc : p.codecs.Idna)
    (hshown : (p.sanitizeUrl url).isSome = true) (hurl : normalizeUrl p.codecs target = some url)
    (hparts : urlsplit p.codecs.toTables url.toList = some parts) (hfree : ¬p.Barred previousUrl parts)
    (hwritten : parts.port = some written) (hallowed : portOf parts written ∈ p.allowedPorts)
    (heval : p.evaluate validated addresses target previousUrl =
      p.resolve addresses (p.hostOf parts) (portOf parts written) >>= p.settle validated url (p.hostOf parts)) :
    p.Keeps validated addresses target previousUrl ↔ labelsOk (parts.hostname p.codecs.toTables) = true ∧
      (p.Reachable addresses (p.hostOf parts) (portOf parts written) → p.Plain validated parts written) := by
  rw [resolve_normal addresses (portOf parts written) hc hurl hparts] at heval
  cases hlabels : labelsOk (parts.hostname p.codecs.toTables) with
  | false =>
    rw [hlabels, if_neg Bool.false_ne_true] at heval
    exact iff_of_false (not_keeps_of_value heval) fun h => Bool.false_ne_true h.1
  | true =>
    rw [hlabels, if_pos rfl] at heval
    refine Iff.trans ?_ (and_iff_right rfl).symm
    obtain ⟨hno, reason, decisions, hsettle⟩ | ⟨hyes, decisions, hsettle⟩ :=
      settle_cases validated (p.hostOf parts) (addresses (p.hostOf parts) (portOf parts written)) hshown
    · exact iff_of_true (keeps_of_blocked (heval.trans hsettle)) fun hreach => absurd hreach.2 hno
    · have hreach : p.Reachable addresses (p.hostOf parts) (portOf parts written) := ⟨hallowed, hyes⟩
      rw [keeps_iff_of_returned (heval.trans hsettle), vouched_iff validated hc hurl hparts hfree hwritten hreach]
      exact ⟨fun hplain _ => hplain, fun h => h hreach⟩

/-- **`evaluate` keeps its promise exactly where nothing slips.** Whatever the target, the URL
before it, the answer of the resolver and the addresses recorded earlier: what is returned is
vouched for and what is raised is a refusal if and only if the normal form and the previous URL
can be taken apart, the resolver can be asked for the host and a destination that is let through has no
port 0 and no final dot. -/
theorem evaluate_keeps_iff (p : SafeUrlPolicy) (hc : p.codecs.Idna)
    (hshown : p.sanitizeUrl = fun url => Fetech.sanitizeUrl p.codecs (sanitizeQuery p.codecs) url)
    (validated : ValidatedAddresses) (addresses : String → Nat → List String) (target : String)
    (previousUrl : Option String) :
    p.Keeps validated addresses target previousUrl ↔ p.Tight validated addresses target previousUrl := by
  cases hurl : normalizeUrl p.codecs target with
  | none =>
    have heval : p.evaluate validated addresses target previousUrl =
        .error (block "url_validation" (p.invalidUrl target)) := by
      rw [evaluate, hurl]
      rfl
    refine iff_of_true (keeps_of_blocked heval) fun url h => ?_
    cases hurl.symm.trans h
  | some url =>
    cases hparts : urlsplit p.codecs.toTables url.toList with
    | none =>
      refine iff_of_false (not_keeps_of_value (evaluate_unparsed hurl hparts)) fun h => ?_
      obtain ⟨-, parts, hsplit, -⟩ := h url hurl
      cases hparts.symm.trans hsplit
    | some parts =>
      have heval : p.evaluate validated addresses target previousUrl = p.checkDestination parts previousUrl >>=
          fun site => p.resolve addresses site.1 site.2 >>= fun resolved => p.settle validated url site.1 resolved :=
        evaluate_checked hurl hparts
      rw [tight_iff hurl hparts]
      have hchecked : p.Checked previousUrl parts (p.checkDestination parts previousUrl) := checkDestination_checked
      generalize p.checkDestination parts previousUrl = result at hchecked heval
      cases hchecked with
      | unread hunread => exact iff_of_false (not_keeps_of_value heval) fun h => hunread h.1
      | barred hread hbarred reason decisions =>
        exact iff_of_true (keeps_of_blocked heval) ⟨hread, fun hfree => absurd hbarred hfree⟩
      | portless hread hfree hport =>
        refine iff_of_false (not_keeps_of_value heval) fun h => ?_
        obtain ⟨written, hwritten, -⟩ := h.2 hfree
        cases hport.symm.trans hwritten
      | closed hread hfree written hwritten hclosed reason decisions =>
        exact iff_of_true (keeps_of_blocked heval)
          ⟨hread, fun _ => ⟨written, hwritten, fun hopen => absurd hopen hclosed⟩⟩
      | passed hread hfree written hwritten hallowed =>
        have hsome : (p.sanitizeUrl url).isSome = true := by
          rw [hshown]
          exact sanitizeUrl_isSome.mpr ⟨parts, written, hparts, hwritten⟩
        rw [keeps_iff_of_passed hc hsome hurl hparts hfree hwritten hallowed heval]
        refine ⟨fun h => ⟨hread, fun _ => ⟨written, hwritten, fun _ => h⟩⟩, fun h => ?_⟩
        obtain ⟨written', hwritten', hopen⟩ := h.2 hfree
        cases hwritten.symm.trans hwritten'
        exact hopen hallowed

/-- A policy that refuses nothing but what every policy refuses, on a network of one address. -/
def openPolicy : SafeUrlPolicy where
  codecs := plainCodecs
  isPublicAddress address := address == "93.184.216.34"
  invalidUrl _ := "only http and https URL targets are accepted"
  sanitizeUrl url := Fetech.sanitizeUrl plainCodecs (sanitizeQuery plainCodecs) url

theorem evaluate_keeps_iff_open :
    openPolicy.Keeps ∅ (fun _ _ => ["93.184.216.34"]) "HTTPS://Example.org:443" none := by
  refine (evaluate_keeps_iff openPolicy plainCodecs_idna rfl _ _ _ _).mpr fun url hurl => ?_
  have hnormal : normalizeUrl openPolicy.codecs "HTTPS://Example.org:443" = some "https://example.org/" := by
    decide +kernel
  cases hurl.symm.trans hnormal
  refine ⟨fun previous hprevious => ?_, ⟨"https".toList, "example.org".toList, ['/'], [], []⟩, ?_,
    fun _ => ⟨none, ?_, fun _ => ⟨?_, fun _ => ⟨?_, ?_⟩⟩⟩⟩
  · cases hprevious
  · decide +kernel
  · decide +kernel
  · decide +kernel
  · intro hzero
    cases hzero
  · intro hdot
    exact absurd hdot (by decide +kernel)

/-- **A port 0 is let through.** It is checked, and resolved, as the port of the scheme, and
stays in the URL that is returned. -/
theorem zero_port_let_through :
    ¬openPolicy.Keeps ∅ (fun _ _ => ["93.184.216.34"]) "http://example.org:0/" none := by
  intro h
  have hreturned : (openPolicy.evaluate ∅ (fun _ _ => ["93.184.216.34"]) "http://example.org:0/" none).toOption.map
      (·.1) = some "http://example.org:0/" := by decide +kernel
  cases heval : openPolicy.evaluate ∅ (fun _ _ => ["93.184.216.34"]) "http://example.org:0/" none with
  | error error =>
    rw [heval] at hreturned
    cases hreturned
  | ok result =>
    rw [heval] at hreturned
    obtain ⟨url, decisions, validated⟩ := result
    cases hreturned
    obtain ⟨parts, written, hparts, -, -, hwritten, hallowed, -⟩ := h.returned _ _ _ heval
    have hsplit : urlsplit openPolicy.codecs.toTables "http://example.org:0/".toList =
        some ⟨"http".toList, "example.org:0".toList, ['/'], [], []⟩ := by decide +kernel
    cases hparts.symm.trans hsplit
    have hzero : SplitResult.port ⟨"http".toList, "example.org:0".toList, ['/'], [], []⟩ = some (some 0) := by
      decide +kernel
    cases hwritten.symm.trans hzero
    exact absurd hallowed (by decide)

end

end Fetech.SafeUrlPolicy
