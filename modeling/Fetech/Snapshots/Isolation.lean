import Fetech.Snapshots.Sample

/-! Who may find what.

A call reads and writes its own partition only, so what the calls of others do makes no
difference to a lookup: a history and the same history without them have the same view
(`view_filter`). Others are those with another key, and a request with another
authentication reference, or none, has another key. The reference itself goes no further
than the scope in the key. -/
namespace Fetech.Snapshots
open Lib Lib.Except Storage

section Isolation
variable {R A : Type} {P : Platform R A}

/-! ### References -/

/-- What the scope of a reference is the hash of. -/
def scopeText (reference : String) : Bytes := utf8 "fetech-authentication-scope-v1\x00" ++ utf8 reference

/-- The hash tells the references apart. -/
structure ScopesApart (H : Hash) (requests : List SnapshotRequest) : Prop where
  apart : ∀ request ∈ requests, ∀ request' ∈ requests, ∀ r ∈ request.authenticationRef, ∀ r' ∈ request'.authenticationRef,
    H.hexdigest (scopeText r) = H.hexdigest (scopeText r') → scopeText r = scopeText r'

theorem scopeText_inj {r r' : String} (h : scopeText r = scopeText r') : r = r' :=
  String.toList_inj.mp (Url.encodeUtf8_inj (List.append_cancel_left h))

theorem authenticationCacheScope_some {H : Hash} {reference scope : String}
    (h : authenticationCacheScope H (some reference) = .ok scope) :
    scope = "auth:sha256:" ++ H.hexdigest (scopeText reference) := by
  rw [authenticationCacheScope] at h
  split at h
  · cases h
  · exact (Except.ok.inj h).symm

theorem authScope_ne_public (digest : String) : "auth:sha256:" ++ digest ≠ "public" := by
  intro h
  have hhead := congrArg List.head? (congrArg String.toList h)
  have hprefix : "auth:sha256:".toList.head? = some 'a' := by decide
  rw [String.toList_append, List.head?_append, hprefix, Option.some_or] at hhead
  revert hhead
  decide

/-- One scope, one reference. -/
theorem ScopesApart.reference_eq {H : Hash} {requests : List SnapshotRequest} (h : ScopesApart H requests)
    {request request' : SnapshotRequest} (hmem : request ∈ requests) (hmem' : request' ∈ requests) {scope : String}
    (hscope : authenticationCacheScope H request.authenticationRef = .ok scope)
    (hscope' : authenticationCacheScope H request'.authenticationRef = .ok scope) :
    request.authenticationRef = request'.authenticationRef := by
  have happart := h.apart request hmem request' hmem'
  cases hr : request.authenticationRef with
  | none =>
    cases hr' : request'.authenticationRef with
    | none => rfl
    | some r' =>
      rw [hr] at hscope
      rw [hr'] at hscope'
      cases hscope
      exact absurd (authenticationCacheScope_some hscope').symm (authScope_ne_public _)
  | some r =>
    cases hr' : request'.authenticationRef with
    | none =>
      rw [hr] at hscope
      rw [hr'] at hscope'
      cases hscope'
      exact absurd (authenticationCacheScope_some hscope).symm (authScope_ne_public _)
    | some r' =>
      rw [hr] at hscope
      rw [hr'] at hscope'
      have hsame := (authenticationCacheScope_some hscope).symm.trans (authenticationCacheScope_some hscope')
      rw [← String.toList_inj, String.toList_append, String.toList_append] at hsame
      have hdigest := String.toList_inj.mp (List.append_cancel_left hsame)
      rw [scopeText_inj (happart r hr r' hr' hdigest)]

theorem forRequest_of_scope {H : Hash} {request : SnapshotRequest} {url representation parserVersion scope : String}
    {vary : List (String × String)} (h : authenticationCacheScope H request.authenticationRef = .ok scope) :
    CacheKey.forRequest H request url representation parserVersion vary = .ok {
      url, representation, authenticationScope := scope, policyProfile := request.policyProfile,
      language := request.language.getD "", parserVersion, region := request.region.getD "", vary} := by
  rw [CacheKey.forRequest, h]
  rfl

theorem forRequest_scope {H : Hash} {request : SnapshotRequest} {url representation parserVersion : String}
    {vary : List (String × String)} {key : CacheKey}
    (h : CacheKey.forRequest H request url representation parserVersion vary = .ok key) :
    authenticationCacheScope H request.authenticationRef = .ok key.authenticationScope := by
  obtain ⟨scope, hscope, hkey⟩ := bind_eq_ok.mp h
  cases hkey
  exact hscope

/-- The request that a call is made for. -/
def Call.request : Call R A → SnapshotRequest
  | .store _ call => call.request
  | .recordNotModified _ _ _ request .. => request

/-- The key of the call is one of its request. -/
structure MadeFor (H : Hash) (call : Call R A) : Prop where
  key : ∃ url representation parserVersion vary,
    CacheKey.forRequest H call.request url representation parserVersion vary = .ok call.key

/-! ### Views -/

/-- The files of a partition. -/
def view (files : Metadata) (d : String) : List ((String × String) × Bytes) := files.entries.filter fun e => e.1.1 == d

theorem find_filter (d i : String) (entries : List ((String × String) × Bytes)) :
    Dict.find (d, i) (entries.filter fun e => e.1.1 == d) = Dict.find (d, i) entries := by
  induction entries with
  | nil => rfl
  | cons e rest ih =>
    rw [List.filter_cons]
    by_cases he : e.1.1 = d
    · rw [if_pos (beq_iff_eq.mpr he), Dict.find, Dict.find, ih]
    · have hne : e.1 ≠ (d, i) := fun heq => he (by rw [heq])
      rw [if_neg (by simpa using he), ih, Dict.find, if_neg hne]

theorem get?_view {files files' : Metadata} {d : String} (h : view files d = view files' d) (i : String) :
    files.get? (d, i) = files'.get? (d, i) := by
  rw [Dict.get?, Dict.get?, ← find_filter, ← find_filter d i files'.entries]
  exact congrArg (Dict.find (d, i)) h

/-- What a write does is settled by the content of its own path. -/
theorem writeImmutable_cases (content : Option Bytes) (path : String × String) (encoded : Bytes) :
    (∃ err, ∀ files : Metadata, files.get? path = content → writeImmutable files path encoded = .error err) ∨
    (∀ files : Metadata, files.get? path = content → writeImmutable files path encoded = .ok files) ∨
    (content = none ∧ ∀ files : Metadata, files.get? path = content →
      writeImmutable files path encoded = .ok (files.set path encoded)) := by
  cases content with
  | none => exact .inr (.inr ⟨rfl, fun files h => by rw [writeImmutable, h]⟩)
  | some existing =>
    by_cases hlength : existing.length > maxMetadataBytes
    · exact .inl ⟨_, fun files h => by rw [writeImmutable, h]; exact if_pos hlength⟩
    · by_cases hsame : existing ≠ encoded
      · exact .inl ⟨_, fun files h => by rw [writeImmutable, h]; exact (if_neg hlength).trans (if_pos hsame)⟩
      · exact .inr (.inl fun files h => by rw [writeImmutable, h]; exact (if_neg hlength).trans (if_neg hsame))

theorem view_set {files : Metadata} {path : String × String} (hpath : files.get? path = none) (encoded : Bytes)
    (d : String) : view (files.set path encoded) d =
      if path.1 = d then view files d ++ [(path, encoded)] else view files d := by
  rw [view, Dict.entries_set_of_absent hpath, List.filter_append]
  by_cases hd : path.1 = d
  · rw [if_pos hd]
    simp [hd, view]
  · rw [if_neg hd]
    simp [hd, view]

/-- The files after a write that may have raised. -/
def filesAfter (files : Metadata) : Except SnapshotError Metadata → Metadata
  | .ok written => written
  | .error _ => files

theorem next_files (h : History R A) (call : Call R A) : (h.next P call).files = filesAfter h.files
    (call.record P >>= fun r => writeImmutable h.files (pathOf r) (P.dumps (recordDocument P r))) := by
  rw [History.next, perform_eq]
  cases call.record P with
  | error err => rfl
  | ok r =>
    have hbind : (Except.ok r >>= writeRecord P h.files) = writeRecord P h.files r := rfl
    rw [hbind, writeRecord]
    cases hwrite : writeImmutable h.files (pathOf r) (P.dumps (recordDocument P r)) with
    | error err =>
      show h.files = filesAfter h.files (writeImmutable h.files (pathOf r) (P.dumps (recordDocument P r)))
      rw [hwrite]
      rfl
    | ok files =>
      show files = filesAfter h.files (writeImmutable h.files (pathOf r) (P.dumps (recordDocument P r)))
      rw [hwrite]
      rfl

/-- A call for another partition leaves the view as it is. -/
theorem view_next_other {h : History R A} {call : Call R A} {d : String} (hother : call.key.digest P.hash ≠ d) :
    view (h.next P call).files d = view h.files d := by
  rw [next_files]
  cases hrecord : call.record P with
  | error err => rfl
  | ok r =>
    have hd : (pathOf r).1 ≠ d := fun hpath => hother ((Call.record_stored hrecord).1.keyDigest.symm.trans hpath)
    show view (filesAfter h.files (writeImmutable h.files (pathOf r) (P.dumps (recordDocument P r)))) d = _
    obtain ⟨err, hwrite⟩ | hwrite | ⟨hnone, hwrite⟩ :=
      writeImmutable_cases (h.files.get? (pathOf r)) (pathOf r) (P.dumps (recordDocument P r))
    · rw [hwrite _ rfl]
      rfl
    · rw [hwrite _ rfl]
      rfl
    · rw [hwrite _ rfl]
      exact (view_set hnone _ d).trans (if_neg hd)

/-- The same call makes of the same view the same view. -/
theorem view_next_own {h h' : History R A} {call : Call R A} {d : String} (hown : call.key.digest P.hash = d)
    (hview : view h.files d = view h'.files d) : view (h.next P call).files d = view (h'.next P call).files d := by
  rw [next_files, next_files]
  cases hrecord : call.record P with
  | error err => exact hview
  | ok r =>
    have hd : (pathOf r).1 = d := (Call.record_stored hrecord).1.keyDigest.trans hown
    have hget : h'.files.get? (pathOf r) = h.files.get? (pathOf r) := by
      subst hd
      exact (get?_view hview _).symm
    show view (filesAfter h.files (writeImmutable h.files (pathOf r) (P.dumps (recordDocument P r)))) d =
      view (filesAfter h'.files (writeImmutable h'.files (pathOf r) (P.dumps (recordDocument P r)))) d
    obtain ⟨err, hwrite⟩ | hwrite | ⟨hnone, hwrite⟩ :=
      writeImmutable_cases (h.files.get? (pathOf r)) (pathOf r) (P.dumps (recordDocument P r))
    · rw [hwrite _ rfl, hwrite _ hget]
      exact hview
    · rw [hwrite _ rfl, hwrite _ hget]
      exact hview
    · rw [hwrite _ rfl, hwrite _ hget]
      show view (h.files.set _ _) d = view (h'.files.set _ _) d
      rw [view_set hnone, view_set (hget.trans hnone), hview]

/-- **Without the calls for other partitions a history has the same view.** -/
theorem view_filter (calls : List (Call R A)) (keep : Call R A → Bool) {d : String}
    (hkeep : ∀ call ∈ calls, call.key.digest P.hash = d → keep call = true) :
    view (history P (calls.filter keep)).files d = view (history P calls).files d := by
  induction calls using List.reverseRecOn with
  | nil => rfl
  | append_singleton calls call ih =>
    have hview := ih fun c hc => hkeep c (List.mem_append_left _ hc)
    rw [List.filter_append, history_concat]
    by_cases hcall : keep call = true
    · rw [List.filter_cons_of_pos hcall, List.filter_nil]
      rw [history_concat]
      by_cases hown : call.key.digest P.hash = d
      · exact view_next_own hown hview
      · rw [view_next_other hown, view_next_other hown, hview]
    · have hother : call.key.digest P.hash ≠ d := fun hown => hcall (hkeep call (by simp) hown)
      rw [List.filter_cons_of_neg hcall, List.filter_nil, List.append_nil, view_next_other hother, hview]

/-! ### Lookups -/

theorem lookup_congr {files files' : Metadata} {key : CacheKey}
    (h : view files (key.digest P.hash) = view files' (key.digest P.hash)) (cas : Cas) (now : Moment) (stale : Int) :
    lookup P cas files key now stale = lookup P cas files' key now stale := by
  have hpartition : partition files (key.digest P.hash) = partition files' (key.digest P.hash) :=
    congrArg (fun entries => entries.mergeSort fun e e' => decide (e.1.2 ≤ e'.1.2)) h
  rw [lookup, lookup, latestSuccessful, latestSuccessful, records, records, hpartition]

theorem disposed_some {record : SnapshotRecord R A} {current stale : Int} {answer : CacheLookup R A}
    (h : disposed record current stale = .ok answer) : answer.record = some record := by
  unfold disposed at h
  split at h
  · cases h
    rfl
  · split at h
    · cases h
      rfl
    · obtain ⟨staleUntil, -, hanswer⟩ := bind_eq_ok.mp h
      split at hanswer <;> cases hanswer <;> rfl

/-- What a lookup answers is the latest successful record. -/
theorem lookup_record {cas : Cas} {files : Metadata} {key : CacheKey} {now : Moment} {stale : Int}
    {answer : CacheLookup R A} {record : SnapshotRecord R A} (h : lookup P cas files key now stale = .ok answer)
    (hrecord : answer.record = some record) : latestSuccessful P cas files key = .ok (some record) := by
  unfold lookup at h
  obtain ⟨_, -, h⟩ := bind_eq_ok.mp h
  obtain ⟨current, -, h⟩ := bind_eq_ok.mp h
  obtain ⟨found, hfound, h⟩ := bind_eq_ok.mp h
  cases found with
  | none =>
    cases h
    cases hrecord
  | some r =>
    rw [disposed_some h] at hrecord
    cases hrecord
    exact hfound

/-- A record that is found is one of those read. -/
theorem latestSuccessful_mem {cas : Cas} {files : Metadata} {key : CacheKey} {record : SnapshotRecord R A}
    (h : latestSuccessful P cas files key = .ok (some record)) : ∃ rs, records P files key = .ok rs ∧ record ∈ rs := by
  obtain ⟨rs, hrs, h⟩ := bind_eq_ok.mp h
  refine ⟨rs, hrs, ?_⟩
  split at h
  · cases h
  · rename_i selected hmax
    obtain ⟨_, -, hselected⟩ := bind_eq_ok.mp h
    cases hselected
    exact (List.mem_filter.mp (newest_mem hmax)).1

theorem Recorded.found {h : History R A} {key : CacheKey} (hh : Recorded P h) (halone : Alone P h key) {cas : Cas}
    {record : SnapshotRecord R A} (hfound : latestSuccessful P cas h.files key = .ok (some record)) :
    (key, record) ∈ h.returned := by
  obtain ⟨rs, hrs, hmem⟩ := latestSuccessful_mem hfound
  have hcount : h.snapshotCount key ≤ maxRecordsPerKey := by
    by_contra hbeyond
    rw [hh.records_eq_error halone (Nat.not_le.mp hbeyond)] at hrs
    cases hrs
  obtain ⟨rs', hrs', hall⟩ := hh.records_eq_ok halone hcount
  rw [hrs'] at hrs
  cases hrs
  exact History.mem_recordsOf.mp ((hall record).mp hmem)

/-! ### The reference -/

/-- The same call for another reference. -/
def Call.withReference (reference : String) : Call R A → Call R A
  | .store cas call => .store cas {call with request := {call.request with authenticationRef := some reference}}
  | .recordNotModified cas key record request ttlSeconds checkedAt etag lastModified =>
    .recordNotModified cas key record {request with authenticationRef := some reference} ttlSeconds checkedAt etag
      lastModified

theorem perform_withReference (files : Metadata) (call : Call R A) (reference reference' : String) :
    perform P files (call.withReference reference) = perform P files (call.withReference reference') := by
  cases call with
  | store cas call => rfl
  | recordNotModified cas key record request ttlSeconds checkedAt etag lastModified =>
    simp only [Call.withReference, perform, recordNotModified, revalidation, bind_assoc, pure_bind]
    rfl

/-- What a request with this key has to do with the calls of a history. -/
structure Isolated (P : Platform R A) (calls : List (Call R A)) (request : SnapshotRequest) (key : CacheKey) : Prop where
  /-- A record that is found was stored by a call with this key, for the same reference or also for none. -/
  found : ∀ cas now stale answer record, lookup P cas (history P calls).files key now stale = .ok answer →
    answer.record = some record → ∃ call ∈ calls, call.key = key ∧ call.record P = .ok record ∧
      call.request.authenticationRef = request.authenticationRef
  /-- Without the calls for other references the lookup is the same. -/
  independent : ∀ cas now stale, lookup P cas (history P (calls.filter fun call =>
    decide (call.request.authenticationRef = request.authenticationRef))).files key now stale =
      lookup P cas (history P calls).files key now stale
  /-- Of the reference a key has the scope only. -/
  scope : ∀ reference ∈ request.authenticationRef,
    key.authenticationScope = "auth:sha256:" ++ P.hash.hexdigest (scopeText reference)
  rekeyed : ∀ reference key', CacheKey.forRequest P.hash {request with authenticationRef := some reference} key.url
    key.representation key.parserVersion key.vary = .ok key' →
      key' = {key with authenticationScope := "auth:sha256:" ++ P.hash.hexdigest (scopeText reference)}
  /-- The calls for two references that are given the same key leave the same files. -/
  hidden : ∀ files call reference reference', perform P files (Call.withReference reference call) =
    perform P files (Call.withReference reference' call)

/-- **A lookup finds what was stored under its own key**, and for its own reference; **what is
stored for others does not change it**, and the files hold nothing of a reference but the
hash in its scope. -/
theorem lookups_isolated {calls : List (Call R A)} {request : SnapshotRequest} {key : CacheKey}
    {url representation parserVersion : String} {vary : List (String × String)}
    (hkey : CacheKey.forRequest P.hash request url representation parserVersion vary = .ok key)
    (hmade : ∀ call ∈ calls, MadeFor P.hash call) (hfree : CollisionFree P.hash (key :: calls.map Call.key))
    (hscopes : ScopesApart P.hash (request :: calls.map Call.request)) : Isolated P calls request key := by
  have hsame : ∀ call ∈ calls, call.key = key → call.request.authenticationRef = request.authenticationRef := by
    intro call hcall heq
    obtain ⟨_, _, _, _, hcallKey⟩ := (hmade call hcall).key
    rw [heq] at hcallKey
    exact hscopes.reference_eq (List.mem_cons_of_mem _ (List.mem_map_of_mem hcall)) (List.mem_cons_self ..)
      (forRequest_scope hcallKey) (forRequest_scope hkey)
  have hown : ∀ call ∈ calls, call.key.digest P.hash = key.digest P.hash → call.key = key := fun call hcall hdigest =>
    hfree.eq_of_digest (List.mem_cons_of_mem _ (List.mem_map_of_mem hcall)) (List.mem_cons_self ..) hdigest
  constructor
  · intro cas now stale answer record hlookup hrecord
    have halone : Alone P (history P calls) key := by
      intro e he hdigest
      obtain ⟨call, hcall, heq, -⟩ := call_of_returned he
      rw [← heq] at hdigest ⊢
      exact hown call hcall hdigest
    have hreturned := (history_recorded calls).found halone (lookup_record hlookup hrecord)
    obtain ⟨call, hcall, heq, hwrote⟩ := call_of_returned hreturned
    exact ⟨call, hcall, heq, hwrote, hsame call hcall heq⟩
  · intro cas now stale
    refine lookup_congr (view_filter calls _ fun call hcall hdigest => ?_) cas now stale
    exact decide_eq_true (hsame call hcall (hown call hcall hdigest))
  · intro reference hreference
    have hscope := forRequest_scope hkey
    rw [hreference] at hscope
    exact authenticationCacheScope_some hscope
  · intro reference key' hkey'
    obtain ⟨scope, hscope, hreturn⟩ := bind_eq_ok.mp hkey
    obtain ⟨scope', hscope', hreturn'⟩ := bind_eq_ok.mp hkey'
    cases hreturn
    cases hreturn'
    rw [authenticationCacheScope_some hscope']
  · exact perform_withReference

end Isolation

/-! ### Two references -/

/-- A hash that tells apart what is in the table. -/
def tableDigest (table : List Bytes) (body : Bytes) : String := hex64 (table.idxOf body)

theorem isDigest_tableDigest (table : List Bytes) (body : Bytes) : isDigest (tableDigest table body) = true :=
  isDigest_hex64 _

theorem tableDigest_inj {table : List Bytes} (hlength : table.length < 65536) {body body' : Bytes} (h : body ∈ table)
    (h' : body' ∈ table) (heq : tableDigest table body = tableDigest table body') : body = body' := by
  have hlt := List.idxOf_lt_length_of_mem h
  have hlt' := List.idxOf_lt_length_of_mem h'
  exact (List.idxOf_inj h).mp (hex64_inj (by omega) (by omega) heq)

def firstScope : String := "auth:sha256:" ++ hex64 0

def secondScope : String := "auth:sha256:" ++ hex64 1

def twoTable : List Bytes :=
  [scopeText "first", scopeText "second", (sampleKey firstScope).encoded, (sampleKey secondScope).encoded]

noncomputable def twoPlatform : Platform SamplePage SampleBody where
  toContracts := sampleContracts
  hash := ⟨tableDigest twoTable, isDigest_tableDigest twoTable⟩
  codecs := asciiCodecs
  isoformat := sampleIsoformat
  fromisoformat := sampleFromisoformat
  from_isoformat := sampleFromisoformat_isoformat
  str := sampleStr
  str_text := sampleStr_text

/-- The page is stored for two references. -/
def twoCalls : List (Call SamplePage SampleBody) :=
  [.store sampleCas (storeAt firstScope (some "first") 0), .store sampleCas (storeAt secondScope (some "second") 1)]

theorem firstScope_eq : authenticationCacheScope twoPlatform.hash (some "first") = .ok firstScope := by
  have hdigest : tableDigest twoTable (scopeText "first") = hex64 0 := by
    rw [tableDigest, twoTable, List.idxOf_cons_self]
  have hblank : (Url.strip "first".toList).isEmpty = false := by decide
  rw [authenticationCacheScope, hblank]
  show Except.ok ("auth:sha256:" ++ tableDigest twoTable (scopeText "first")) = _
  rw [hdigest]
  rfl

theorem secondScope_eq : authenticationCacheScope twoPlatform.hash (some "second") = .ok secondScope := by
  have hne : scopeText "first" ≠ scopeText "second" := fun h => absurd (scopeText_inj h) (by decide)
  have hdigest : tableDigest twoTable (scopeText "second") = hex64 1 := by
    rw [tableDigest, twoTable, List.idxOf_cons_ne _ hne, List.idxOf_cons_self]
  have hblank : (Url.strip "second".toList).isEmpty = false := by decide
  rw [authenticationCacheScope, hblank]
  show Except.ok ("auth:sha256:" ++ tableDigest twoTable (scopeText "second")) = _
  rw [hdigest]
  rfl

def firstRequest : SnapshotRequest := {target := "https://a.example/", authenticationRef := some "first"}

theorem firstKey_eq : CacheKey.forRequest twoPlatform.hash firstRequest "https://a.example/" "archived_snapshot" "1" =
    .ok (sampleKey firstScope) :=
  forRequest_of_scope firstScope_eq

theorem secondKey_eq : CacheKey.forRequest twoPlatform.hash (storeAt secondScope (some "second") 1).request
    "https://a.example/" "archived_snapshot" "1" = .ok (sampleKey secondScope) :=
  forRequest_of_scope secondScope_eq

theorem lookups_isolated_two : Isolated twoPlatform twoCalls firstRequest (sampleKey firstScope) := by
  have hkeys : ∀ k ∈ sampleKey firstScope :: twoCalls.map Call.key, k.encoded ∈ twoTable := by
    intro k hk
    simp only [twoCalls, List.map_cons, List.map_nil, List.mem_cons, List.not_mem_nil, or_false] at hk
    obtain rfl | rfl | rfl := hk <;> simp [twoTable, Call.key, storeAt]
  have hreferences : ∀ request ∈ firstRequest :: twoCalls.map Call.request, ∀ r ∈ request.authenticationRef,
      scopeText r ∈ twoTable := by
    intro request hrequest r hr
    simp only [twoCalls, List.map_cons, List.map_nil, List.mem_cons, List.not_mem_nil, or_false] at hrequest
    obtain rfl | rfl | rfl := hrequest <;> cases hr <;> simp [twoTable]
  refine lookups_isolated firstKey_eq (fun call hcall => ?_) ⟨fun k hk k' hk' heq => ?_⟩
    ⟨fun request hrequest request' hrequest' r hr r' hr' heq => ?_⟩
  · simp only [twoCalls, List.mem_cons, List.not_mem_nil, or_false] at hcall
    obtain rfl | rfl := hcall
    · exact ⟨_, _, _, _, firstKey_eq⟩
    · exact ⟨_, _, _, _, secondKey_eq⟩
  · exact tableDigest_inj (by decide) (hkeys k hk) (hkeys k' hk') heq
  · exact tableDigest_inj (by decide) (hreferences request hrequest r hr) (hreferences request' hrequest' r' hr') heq

/-! ### A reference that every file contains -/

theorem History.next_of_ok {R A : Type} {P : Platform R A} {h : History R A} {call : Call R A} {r : SnapshotRecord R A}
    {files : Metadata} (hperform : perform P h.files call = .ok (r, files)) :
    h.next P call = {files, returned := h.returned ++ [(call.key, r)]} := by
  rw [History.next, hperform]

def artifactScope : String := "auth:sha256:" ++ sampleDigest (scopeText "artifact")

theorem length_artifactScope : artifactScope.toList.length ≤ 100 := by
  have hdigest := isDigest_sampleDigest (scopeText "artifact")
  rw [isDigest, Bool.and_eq_true, beq_iff_eq] at hdigest
  have hprefix : "auth:sha256:".toList.length = 12 := by decide
  rw [artifactScope, String.toList_append, List.length_append, hdigest.1, hprefix]
  decide

theorem artifactScope_eq : authenticationCacheScope samplePlatform.hash (some "artifact") = .ok artifactScope := by
  have hblank : (Url.strip "artifact".toList).isEmpty = false := by decide
  rw [authenticationCacheScope, hblank, if_neg Bool.false_ne_true, samplePlatform_hash, artifactScope, scopeText]

/-- The text of an object begins with its first key. -/
theorem dumps_object_head (key : List Char) (v : Json.Value) (fields : List (List Char × Json.Value)) :
    ∃ rest, Json.dumps (.object ((key, v) :: fields)) = '{' :: (Json.dumpString key ++ rest) := by
  cases fields with
  | nil => exact ⟨':' :: Json.dumps v ++ ['}'], by simp [Json.dumps, Json.dumpFields]⟩
  | cons field fields =>
    exact ⟨':' :: Json.dumps v ++ ',' :: Json.dumpFields (field :: fields) ++ ['}'], by
      simp [Json.dumps, Json.dumpFields]⟩

theorem artifact_in_document (r : SnapshotRecord SamplePage SampleBody) :
    utf8 "artifact" <:+: samplePlatform.dumps (recordDocument samplePlatform r) := by
  obtain ⟨rest, hrest⟩ : ∃ rest, Json.dumps (toValue (recordDocument samplePlatform r)) =
      '{' :: (Json.dumpString "artifact".toList ++ rest) := dumps_object_head _ _ _
  have hkey : Json.dumpString "artifact".toList = ['"'] ++ "artifact".toList ++ ['"'] := by decide
  have htext : Json.dumps (toValue (recordDocument samplePlatform r)) =
      ['{', '"'] ++ "artifact".toList ++ ('"' :: rest) := by
    rw [hrest, hkey]
    simp
  refine ⟨Url.encodeUtf8 ['{', '"'], Url.encodeUtf8 ('"' :: rest), ?_⟩
  show _ = Url.encodeUtf8 (Json.dumps (toValue (recordDocument samplePlatform r)))
  rw [htext, utf8, Url.encodeUtf8, Url.encodeUtf8, Url.encodeUtf8, Url.encodeUtf8, List.flatMap_append,
    List.flatMap_append]

/-- For a reference `artifact` a key can be made and the page stored, and the file has the word in it. -/
theorem reference_in_file : ∃ content,
    CacheKey.forRequest samplePlatform.hash (storeAt artifactScope (some "artifact") 0).request "https://a.example/"
      "archived_snapshot" "1" = .ok (storeAt artifactScope (some "artifact") 0).key ∧
    (history samplePlatform [.store sampleCas (storeAt artifactScope (some "artifact") 0)]).files.get?
      (hex64 0, hex64 1) = some content ∧ utf8 "artifact" <:+: content := by
  refine ⟨_, ?_, ?_, artifact_in_document (recordAt artifactScope 0)⟩
  · exact forRequest_of_scope artifactScope_eq
  · have hstore : store samplePlatform sampleCas ∅ (storeAt artifactScope (some "artifact") 0) =
        .ok (recordAt artifactScope 0, Dict.set ∅ (hex64 0, hex64 1)
          (samplePlatform.dumps (recordDocument samplePlatform (recordAt artifactScope 0)))) :=
      store_storeAt length_artifactScope (some "artifact") (by decide) rfl
    have hperform : perform samplePlatform ({} : History SamplePage SampleBody).files
        (.store sampleCas (storeAt artifactScope (some "artifact") 0)) = _ := hstore
    rw [history, List.foldl_cons, List.foldl_nil, History.next_of_ok hperform]
    generalize samplePlatform.dumps (recordDocument samplePlatform (recordAt artifactScope 0)) = content
    generalize hex64 0 = d
    generalize hex64 1 = i
    show (Dict.set (∅ : Metadata) (d, i) content).get? (d, i) = some content
    rw [Dict.get?_set, if_pos rfl]

end Fetech.Snapshots
