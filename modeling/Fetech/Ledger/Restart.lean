import Fetech.Documents
import Fetech.Ledger

/-! Which runs are authenticated, before and after a restart (`fetech/ledger.py`).

The set `_authenticated_runs` is not stored. `create_run` fills it from the request as it
was submitted, `initialize` from the request as it was stored, and between the two stands
`_sanitize_payload`, which puts a mark for whatever is under `authentication_ref`: also for
`None`. So a run keeps its standing unless its request has the key without a value. -/
namespace Fetech.Ledger.Restart
open Lib

/-- A request document: what `model_dump` makes of a `FetchRequest`. -/
abbrev Request := List (String × Document)

/-- `request_document.get("authentication_ref") is not None`. -/
def authenticated (request : Request) : Bool := (Document.get? request "authentication_ref").isSome

/-- A database in use: the ledger over it, and the `request_json` of every run. -/
structure Durable where
  ledger : State := {}
  requests : Dict RunId Request := ∅

inductive Call where
  | createRun (runId : RunId) (request : Request)
  /-- Any step of `append`, `update_run` or a subscriber. -/
  | other (a : Action)

/-- The `request_json` of a new run, as it is read back. -/
def storedRequest (c : Codecs) (request : Request) : Request :=
  dumpedFields (payloadFields c (authenticated request) request)

def step (c : Codecs) (z : Sanitizer) (s : Durable) : Call → Option Durable
  | .createRun runId request =>
    (s.ledger.step z (.createRun runId (authenticated request))).map fun ledger =>
      {ledger, requests := s.requests.set runId (storedRequest c request)}
  | .other (.createRun _ _) => none
  | .other a => (s.ledger.step z a).map fun ledger => {s with ledger}

def machine (c : Codecs) (z : Sanitizer) : Machine Durable Call := ⟨step c z⟩

/-- A new `EventLedger` on the database: the rows stay, the process is another one. -/
def restart (s : Durable) : State where
  events := s.ledger.events
  runs := s.ledger.runs
  authenticatedRuns := (s.requests.entries.filter fun row => authenticated row.2).map Prod.fst

/-! ### What the stored request still says -/

theorem lookup_payloadFields (c : Codecs) (auth : Bool) (request : Request) (key : String) :
    (payloadFields c auth request).lookup key = (request.lookup key).map (sanitizePayload c auth key) := by
  induction request with
  | nil => rfl
  | cons field rest ih =>
    obtain ⟨k, child⟩ := field
    by_cases hk : key = k
    · subst hk
      simp [payloadFields]
    · simp [payloadFields, List.lookup_cons, beq_false_of_ne hk, ih]

theorem lookup_dumpedFields (request : Request) (key : String) :
    (dumpedFields request).lookup key = (request.lookup key).map dumped := by
  induction request with
  | nil => rfl
  | cons field rest ih =>
    obtain ⟨k, child⟩ := field
    by_cases hk : key = k
    · subst hk
      simp [dumpedFields]
    · simp [dumpedFields, List.lookup_cons, beq_false_of_ne hk, ih]

theorem isRedactedKey_authentication_ref (c : Codecs) : isRedactedKey c "authentication_ref" = true := by
  have hlower : c.lower "authentication_ref".toList = "authentication_ref".toList :=
    (c.lower_ascii _ (by decide)).trans (by decide)
  unfold isRedactedKey
  rw [hlower]
  decide

/-- **The mark is put for a missing reference too**: what is read back is that the request
had the key. -/
theorem authenticated_storedRequest (c : Codecs) (request : Request) :
    authenticated (storedRequest c request) = (request.lookup "authentication_ref").isSome := by
  unfold authenticated storedRequest Document.get?
  rw [lookup_dumpedFields, lookup_payloadFields]
  cases request.lookup "authentication_ref" with
  | none => rfl
  | some value =>
    have hmark : ∀ auth, sanitizePayload c auth "authentication_ref" value = .text redacted := by
      intro auth
      rw [sanitizePayload.eq_def, if_pos (isRedactedKey_authentication_ref c)]
    simp [hmark, dumped]

/-! ### Runs -/

/-- The runs a list of calls creates, with their requests. -/
def created (calls : List Call) : List (RunId × Request) :=
  calls.filterMap fun
    | .createRun runId request => some (runId, request)
    | .other _ => none

theorem mem_created {calls : List Call} {runId : RunId} {request : Request} :
    (runId, request) ∈ created calls ↔ .createRun runId request ∈ calls := by
  unfold created
  rw [List.mem_filterMap]
  constructor
  · rintro ⟨call, hcall, hsome⟩
    cases call with
    | createRun id r =>
      cases hsome
      exact hcall
    | other a => cases hsome
  · exact fun hcall => ⟨_, hcall, rfl⟩

/-- What database and process hold of the runs created so far. -/
structure Recorded (c : Codecs) (s : Durable) (runs : List (RunId × Request)) : Prop where
  rows : s.requests.entries = runs.map fun run => (run.1, storedRequest c run.2)
  flagged : ∀ runId, runId ∈ s.ledger.authenticatedRuns ↔ ∃ request, (runId, request) ∈ runs ∧ authenticated request
  known : ∀ runId, (s.ledger.runs.get? runId).isSome ↔ ∃ request, (runId, request) ∈ runs

/-- Whatever is not `create_run` keeps the set, and rows come from `create_run` alone. -/
theorem step_other {z : Sanitizer} {s t : State} {a : Action} (hstep : s.step z a = some t)
    (ha : ∀ runId flag, a ≠ .createRun runId flag) :
    t.authenticatedRuns = s.authenticatedRuns ∧ ∀ runId, (t.runs.get? runId).isSome = (s.runs.get? runId).isSome := by
  cases a with
  | createRun runId flag => exact absurd rfl (ha runId flag)
  | append e =>
    cases hstep
    exact ⟨rfl, fun _ => rfl⟩
  | commitAppend i =>
    simp only [State.step] at hstep
    split at hstep
    · split at hstep
      · cases hstep
        unfold State.commitAppend
        split
        · exact ⟨rfl, fun _ => rfl⟩
        · exact ⟨rfl, fun _ => rfl⟩
      · cases hstep
    · cases hstep
  | notifyAppend i =>
    simp only [State.step] at hstep
    split at hstep
    · split at hstep
      · cases hstep
        exact ⟨rfl, fun _ => rfl⟩
      · cases hstep
    · cases hstep
  | updateRun runId state result =>
    cases hstep
    exact ⟨rfl, fun _ => rfl⟩
  | commitUpdate i =>
    simp only [State.step] at hstep
    split at hstep
    · split at hstep
      · rename_i u _ _
        cases hstep
        unfold State.commitUpdate
        split
        · exact ⟨rfl, fun _ => rfl⟩
        · rename_i row hrow
          refine ⟨rfl, fun runId => ?_⟩
          rw [Dict.get?_set]
          split
          · rename_i hid
            rw [hid, hrow]
            rfl
          · rfl
      · cases hstep
    · cases hstep
  | notifyUpdate i =>
    simp only [State.step] at hstep
    split at hstep
    · split at hstep
      · cases hstep
        exact ⟨rfl, fun _ => rfl⟩
      · cases hstep
    · cases hstep
  | subscribe runId =>
    cases hstep
    exact ⟨rfl, fun _ => rfl⟩
  | advance i =>
    simp only [State.step] at hstep
    split at hstep
    · obtain ⟨st, -, rfl⟩ := Option.map_eq_some_iff.mp hstep
      exact ⟨rfl, fun _ => rfl⟩
    · cases hstep

/-- **One call keeps the record.** -/
theorem step_recorded {c : Codecs} {z : Sanitizer} {s t : Durable} {call : Call} {runs : List (RunId × Request)}
    (h : Recorded c s runs) (ht : step c z s call = some t) : Recorded c t (runs ++ created [call]) := by
  cases call with
  | createRun runId request =>
    obtain ⟨ledger, hledger, rfl⟩ := Option.map_eq_some_iff.mp ht
    simp only [State.step] at hledger
    split at hledger
    · cases hledger
    · rename_i hnew
      cases hledger
      have hfresh : ∀ request', (runId, request') ∉ runs := fun request' hmem =>
        hnew ((h.known runId).mpr ⟨request', hmem⟩)
      have habsent : s.requests.get? runId = none := by
        cases hget : s.requests.get? runId with
        | none => rfl
        | some row =>
          have hmem := (s.requests.get?_eq_some_iff runId row).mp hget
          rw [h.rows] at hmem
          obtain ⟨run, hrun, heq⟩ := List.mem_map.mp hmem
          cases heq
          exact absurd hrun (hfresh run.2)
      refine ⟨?_, fun id => ?_, fun id => ?_⟩
      · rw [Dict.entries_set_of_absent habsent, h.rows, List.map_append]
        rfl
      · simp only [State.createRun, created, List.filterMap_cons, List.filterMap_nil, List.mem_append,
          List.mem_singleton, Prod.mk.injEq, or_and_right, exists_or, ← h.flagged id]
        split
        · rename_i hauth
          constructor
          · intro hid
            obtain rfl | hid := List.mem_cons.mp hid
            · exact .inr ⟨request, ⟨rfl, rfl⟩, hauth⟩
            · exact .inl hid
          · rintro (hid | ⟨_, ⟨rfl, rfl⟩, _⟩)
            · exact List.mem_cons_of_mem _ hid
            · exact List.mem_cons_self ..
        · rename_i hauth
          constructor
          · exact fun hid => .inl hid
          · rintro (hid | ⟨_, ⟨rfl, rfl⟩, habs⟩)
            · exact hid
            · exact absurd habs hauth
      · simp only [State.createRun, created, List.filterMap_cons, List.filterMap_nil, List.mem_append,
          List.mem_singleton, Prod.mk.injEq, exists_or, ← h.known id, Dict.get?_set]
        split
        · rename_i hid
          simp [hid]
        · rename_i hid
          simp [hid]
  | other a =>
    have hcall : ∃ ledger, s.ledger.step z a = some ledger ∧ t = {s with ledger} ∧
        ∀ runId flag, a ≠ .createRun runId flag := by
      cases a with
      | createRun runId flag => cases ht
      | _ =>
        simp only [step, Option.map_eq_some_iff] at ht
        obtain ⟨ledger, hledger, rfl⟩ := ht
        exact ⟨ledger, hledger, rfl, fun _ _ => Action.noConfusion⟩
    obtain ⟨ledger, hledger, rfl, ha⟩ := hcall
    obtain ⟨hflags, hknown⟩ := step_other hledger ha
    simp only [created, List.filterMap_cons, List.filterMap_nil, List.append_nil]
    exact ⟨h.rows, fun id => hflags ▸ h.flagged id, fun id => by rw [hknown id]; exact h.known id⟩

theorem run_recorded {c : Codecs} {z : Sanitizer} {s t : Durable} {calls : List Call} {runs : List (RunId × Request)}
    (h : Recorded c s runs) (ht : (machine c z).run s calls = some t) : Recorded c t (runs ++ created calls) := by
  induction calls generalizing s runs with
  | nil =>
    cases ht
    simpa [created] using h
  | cons call rest ih =>
    obtain ⟨u, hu, hrest⟩ := Machine.run_cons ht
    have hend := ih (step_recorded h hu) hrest
    have hsplit : created (call :: rest) = created [call] ++ created rest :=
      @List.filterMap_append _ _ [call] rest _
    rw [hsplit, ← List.append_assoc]
    exact hend

/-- After a restart a run is flagged if its request had the key. -/
theorem Recorded.restarted {c : Codecs} {s : Durable} {runs : List (RunId × Request)} (h : Recorded c s runs)
    (runId : RunId) : runId ∈ (restart s).authenticatedRuns ↔
      ∃ request, (runId, request) ∈ runs ∧ (request.lookup "authentication_ref").isSome := by
  simp only [restart, h.rows, List.mem_map, List.mem_filter, ← authenticated_storedRequest c]
  constructor
  · rintro ⟨row, ⟨⟨run, hrun, rfl⟩, hauth⟩, rfl⟩
    exact ⟨run.2, hrun, hauth⟩
  · rintro ⟨request, hrun, hauth⟩
    exact ⟨_, ⟨⟨_, hrun, rfl⟩, hauth⟩, rfl⟩

/-- A run has one request. -/
theorem Recorded.request_unique {c : Codecs} {s : Durable} {runs : List (RunId × Request)} (h : Recorded c s runs)
    {runId : RunId} {request request' : Request} (hr : (runId, request) ∈ runs) (hr' : (runId, request') ∈ runs) :
    request = request' := by
  have hnodup := s.requests.nodup
  rw [h.rows, List.map_map] at hnodup
  have heq := List.inj_on_of_nodup_map hnodup hr hr' rfl
  exact (Prod.mk.inj heq).2

/-- The request names a reference wherever it has the key. -/
def NoNullReference (request : Request) : Prop :=
  (request.lookup "authentication_ref").isSome = true → authenticated request = true

theorem lookup_of_authenticated {request : Request} (h : authenticated request = true) :
    (request.lookup "authentication_ref").isSome = true := by
  unfold authenticated Document.get? at h
  cases hlookup : request.lookup "authentication_ref" with
  | none => simp [hlookup] at h
  | some value => rfl

/-- **A restart restores which runs are authenticated exactly when no request has the key
`authentication_ref` without a value**; then every later event and result is sanitised as it
would have been. -/
theorem restart_restores (c : Codecs) (z : Sanitizer) (calls : List Call) (s : Durable)
    (hs : (machine c z).run {} calls = some s) :
    ((∀ runId, runId ∈ (restart s).authenticatedRuns ↔
        ∃ request, .createRun runId request ∈ calls ∧ authenticated request = true) ↔
      ∀ runId request, .createRun runId request ∈ calls → NoNullReference request) ∧
    ((∀ runId request, .createRun runId request ∈ calls → NoNullReference request) →
      (∀ e, (restart s).sanitized z e = s.ledger.sanitized z e) ∧
      ∀ runId result, z.result ((restart s).authenticatedRuns.contains runId) result =
        z.result (s.ledger.authenticatedRuns.contains runId) result) := by
  have hinitial : Recorded c {} [] := ⟨rfl, fun _ => by simp, fun _ => by simp⟩
  have h := run_recorded hinitial hs
  rw [List.nil_append] at h
  simp only [← mem_created]
  refine ⟨⟨fun hall runId request hrun hkey => ?_, fun hnull runId => ?_⟩, fun hnull => ?_⟩
  · obtain ⟨request', hrun', hauth⟩ := (hall runId).mp ((h.restarted runId).mpr ⟨request, hrun, hkey⟩)
    rw [h.request_unique hrun hrun']
    exact hauth
  · rw [h.restarted]
    constructor
    · rintro ⟨request, hrun, hkey⟩
      exact ⟨request, hrun, hnull runId request hrun hkey⟩
    · rintro ⟨request, hrun, hauth⟩
      exact ⟨request, hrun, lookup_of_authenticated hauth⟩
  · have hsame : ∀ runId, (restart s).authenticatedRuns.contains runId = s.ledger.authenticatedRuns.contains runId := by
      intro runId
      rw [Bool.eq_iff_iff, List.contains_iff_mem, List.contains_iff_mem, h.restarted, h.flagged]
      constructor
      · rintro ⟨request, hrun, hkey⟩
        exact ⟨request, hrun, hnull runId request hrun hkey⟩
      · rintro ⟨request, hrun, hauth⟩
        exact ⟨request, hrun, lookup_of_authenticated hauth⟩
    refine ⟨fun e => ?_, fun runId result => ?_⟩
    · simp only [State.sanitized, hsame]
    · rw [hsame]

/-- A sanitizer that changes nothing. -/
def plain : Sanitizer := ⟨fun _ payload => payload, fun _ result => result⟩

/-- A request with a reference. -/
def signedRequest : Request :=
  [("target", .text "https://example.com/"), ("authentication_ref", .text "vault://service/account")]

theorem restart_restores_signed : ∃ s, (machine asciiCodecs plain).run {} [.createRun 0 signedRequest] = some s ∧
    0 ∈ (restart s).authenticatedRuns := by
  refine ⟨_, rfl, ?_⟩
  refine ((restart_restores asciiCodecs plain [.createRun 0 signedRequest] _ rfl).1.mpr ?_ 0).mpr
    ⟨signedRequest, List.mem_singleton_self _, rfl⟩
  intro runId request hmem _
  cases List.mem_singleton.mp hmem
  rfl

/-- What `model_dump` makes of a public request: the key is there, the value `None`. -/
def publicRequest : Request := [("target", .text "https://example.com/"), ("authentication_ref", .null)]

/-- A public run is authenticated after a restart. -/
theorem public_run_flagged : ∃ s, (machine asciiCodecs plain).run {} [.createRun 0 publicRequest] = some s ∧
    0 ∉ s.ledger.authenticatedRuns ∧ 0 ∈ (restart s).authenticatedRuns ∧
    ¬ ∃ request, Call.createRun 0 request ∈ [Call.createRun 0 publicRequest] ∧ authenticated request = true := by
  refine ⟨_, rfl, by decide, ?_, ?_⟩
  · have hkey : authenticated (storedRequest asciiCodecs publicRequest) = true :=
      (authenticated_storedRequest asciiCodecs publicRequest).trans rfl
    show 0 ∈ (List.filter (fun row : RunId × Request => authenticated row.2)
      [(0, storedRequest asciiCodecs publicRequest)]).map Prod.fst
    rw [List.filter_cons, if_pos hkey]
    exact List.mem_singleton_self _
  · rintro ⟨request, hmem, hauth⟩
    cases List.mem_singleton.mp hmem
    cases hauth

end Fetech.Ledger.Restart
