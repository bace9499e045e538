import Fetech.Snapshots
import Mathlib.Data.List.Dedup

/-! What the files of a partition hold.

Whatever a call returns stands in a file, and is what the file is read as; and there is no
other file (`Recorded`). Sanitizing leaves the address of an artifact as it is, so the
body that was verified for a store is the one a lookup verifies. Keys are told apart by
their digests as far as their encodings are (`CollisionFree`), since no two keys have one
encoding. -/
namespace Fetech.Snapshots
open Lib Lib.Except Storage

/-! ### Keys -/

theorem CacheKey.encoded_inj {k k' : CacheKey} (h : k.encoded = k'.encoded) : k = k' := by
  have hdocument := Json.dumps_inj (Url.encodeUtf8_inj h)
  have hvary : Function.Injective fun pair : String × String =>
      Json.Value.array [.string pair.1.toList, .string pair.2.toList] := by
    intro pair pair' hpair
    simp only [Json.Value.array.injEq, List.cons.injEq, Json.Value.string.injEq, String.toList_inj, and_true] at hpair
    exact Prod.ext hpair.1 hpair.2
  simp only [document, Json.Value.object.injEq, List.cons.injEq, Prod.mk.injEq, Json.Value.string.injEq,
    Json.Value.array.injEq, String.toList_inj, true_and, and_true, List.map_inj_right hvary] at hdocument
  obtain ⟨hscope, hlanguage, hparser, hpolicy, hregion, hrepresentation, hurl, hvary⟩ := hdocument
  cases k
  cases k'
  simp only [CacheKey.mk.injEq]
  exact ⟨hurl, hrepresentation, hscope, hpolicy, hlanguage, hparser, hvary, hregion⟩

/-- The hash tells the encodings of these keys apart. -/
structure CollisionFree (H : Hash) (keys : List CacheKey) : Prop where
  apart : ∀ k ∈ keys, ∀ k' ∈ keys, H.hexdigest k.encoded = H.hexdigest k'.encoded → k.encoded = k'.encoded

theorem CollisionFree.eq_of_digest {H : Hash} {keys : List CacheKey} (h : CollisionFree H keys) {k k' : CacheKey}
    (hk : k ∈ keys) (hk' : k' ∈ keys) (hdigest : k.digest H = k'.digest H) : k = k' :=
  CacheKey.encoded_inj (h.apart k hk k' hk' hdigest)

/-! ### What sanitizing leaves alone -/

theorem lookup_outputFields (c : Codecs) (authenticated : Bool) (key : String) (fields : Fields) :
    (outputFields c authenticated fields).lookup key =
      (fields.lookup key).map (sanitizeOutputForRequest c authenticated key) := by
  induction fields with
  | nil => rfl
  | cons field rest ih =>
    obtain ⟨name, child⟩ := field
    rw [outputFields, List.lookup_cons, List.lookup_cons]
    by_cases hname : key = name
    · subst hname
      simp
    · simp only [beq_eq_false_iff_ne.mpr hname, ih]

/-- No URL begins in a text without a `t`. -/
theorem scanText_eq_self (c : Codecs) {s : List Char} (h : ∀ ch ∈ s, ch.toLower ≠ 't') : scanText c 0 s = s := by
  induction s with
  | nil => rfl
  | cons ch rest ih =>
    have hstart : startsUrl (ch :: rest) = false := by
      cases rest with
      | nil => simp [startsUrl, opensWith]
      | cons second rest =>
        have hsecond : second.toLower ≠ 't' := h second (by simp)
        simp [startsUrl, opensWith, matchesLetter, hsecond]
    rw [scanText, hstart, ih fun x hx => h x (List.mem_cons_of_mem ch hx)]
    rfl

theorem toLower_ne_of_all {s : List Char} (h : (s.all fun ch => ch.toLower != 't') = true) :
    ∀ ch ∈ s, ch.toLower ≠ 't' := fun ch hch => bne_iff_ne.mp (List.all_eq_true.mp h ch hch)

theorem outputText_address (c : Codecs) (authenticated : Bool) {key value : String} (hkey : isOutputUrl c key = false)
    (hvalue : ∀ ch ∈ value.toList, ch.toLower ≠ 't') : outputText c authenticated key value = value := by
  rw [outputText, hkey, sanitizeAuthenticatedText, scanText_eq_self c hvalue, String.ofList_toList]
  simp

theorem isOutputUrl_casUri (c : Codecs) : isOutputUrl c "cas_uri" = false := by
  rw [isOutputUrl, c.casefold_ascii _ (by decide)]
  decide

theorem isOutputUrl_sha256 (c : Codecs) : isOutputUrl c "sha256" = false := by
  rw [isOutputUrl, c.casefold_ascii _ (by decide)]
  decide

theorem toLower_digest {digest : String} (h : isDigest digest = true) : ∀ ch ∈ digest.toList, ch.toLower ≠ 't' := by
  intro ch hch
  rw [isDigest, Bool.and_eq_true, List.all_eq_true] at h
  have hhex : ("0123456789abcdef".toList.all fun ch => ch.toLower != 't') = true := by decide
  exact toLower_ne_of_all hhex ch (by simpa using h.2 ch hch)

theorem toLower_casUri {digest : String} (h : isDigest digest = true) :
    ∀ ch ∈ (casPrefix ++ digest).toList, ch.toLower ≠ 't' := by
  intro ch hch
  rw [String.toList_append, List.mem_append] at hch
  cases hch with
  | inl hprefix =>
    have hall : (casPrefix.toList.all fun ch => ch.toLower != 't') = true := by decide
    exact toLower_ne_of_all hall ch hprefix
  | inr hdigest => exact toLower_digest h ch hdigest

section Store
variable {R A : Type} {P : Platform R A}

theorem verifyArtifact_eq_ok {cas : Cas} {a : A} : verifyArtifact P cas a = .ok () ↔
    P.casUri a = casPrefix ++ P.sha256 a ∧ ∃ body, cas (P.casUri a) (P.size a) = .ok body ∧
      body.length = P.size a ∧ P.hash.hexdigest body = P.sha256 a := by
  unfold verifyArtifact
  cases hcas : cas (P.casUri a) (P.size a) with
  | error err =>
    constructor
    · intro h
      obtain ⟨_, -, hbody⟩ := bind_eq_ok.mp h
      cases err <;> cases hbody
    · rintro ⟨-, body, hbody, -⟩
      cases hbody
  | ok body =>
    simp only [bind_eq_ok, require_eq_ok, beq_iff_eq, exists_const, Except.ok.injEq, exists_eq_left']

/-- The address of an artifact passes sanitizing unchanged. -/
structure SameAddress (P : Platform R A) (a a' : A) : Prop where
  casUri : P.casUri a' = P.casUri a
  sha256 : P.sha256 a' = P.sha256 a
  size : P.size a' = P.size a

theorem SameAddress.verify {cas : Cas} {a a' : A} (h : SameAddress P a a') (hverified : verifyArtifact P cas a = .ok ()) :
    verifyArtifact P cas a' = .ok () := by
  rw [verifyArtifact_eq_ok] at hverified ⊢
  rw [h.casUri, h.sha256, h.size]
  exact hverified

theorem sanitizedArtifact_address {cas : Cas} {request : SnapshotRequest} {a a' : A}
    (hverified : verifyArtifact P cas a = .ok ()) (h : sanitizedArtifact P request a = .ok a') : SameAddress P a a' := by
  obtain ⟨huri, body, -, -, hhash⟩ := verifyArtifact_eq_ok.mp hverified
  have hdigest : isDigest (P.sha256 a) = true := hhash ▸ P.hash.isDigest_hexdigest body
  rw [sanitizedArtifact, ofOption_eq_ok] at h
  constructor
  · refine P.validate_casUri _ _ _ h ?_
    rw [lookup_outputFields, P.dump_casUri, huri]
    simp only [Option.map_some, sanitizeOutputForRequest]
    rw [outputText_address _ _ (isOutputUrl_casUri _) (toLower_casUri hdigest)]
  · refine P.validate_sha256 _ _ _ h ?_
    rw [lookup_outputFields, P.dump_sha256]
    simp only [Option.map_some, sanitizeOutputForRequest]
    rw [outputText_address _ _ (isOutputUrl_sha256 _) (toLower_digest hdigest)]
  · refine P.validate_size _ _ _ h ?_
    rw [lookup_outputFields, P.dump_size]
    rfl

/-! ### Reading a record back -/

/-- What a store has checked of a record. -/
structure WellFormed (r : SnapshotRecord R A) : Prop where
  snapshotId : isDigest r.snapshotId = true
  keyDigest : isDigest r.keyDigest = true
  capability : cacheCapabilities.contains r.sourceCapability = true
  etag : validateValidator r.etag "ETag" = .ok ()
  lastModified : validateValidator r.lastModified "Last-Modified" = .ok ()
  storedAt : minTime ≤ r.storedAt ∧ r.storedAt ≤ maxTime
  expiresAt : ∀ t ∈ r.expiresAt, minTime ≤ t ∧ t ≤ maxTime

theorem isJson_recordDocument (r : SnapshotRecord R A) : isJson P.isLiteral (recordDocument P r) = true := by
  have hartifact := P.json_artifact r.artifact
  rw [isJson, Bool.and_eq_true] at hartifact
  have htext : ∀ o : Option String, isJson P.isLiteral (optionalText o) = true := by
    intro o
    cases o <;> rfl
  simp only [recordDocument, isJson, fieldsJson, htext, P.json_resource, hartifact.1, hartifact.2, List.map,
    P.literal_bool, Bool.and_true, decide_eq_true_eq]
  decide

theorem parseTime_isoformat {t : Int} (h : minTime ≤ t ∧ t ≤ maxTime) : parseTime P (.text (P.isoformat t)) = .ok t := by
  rw [parseTime, P.str_text, P.from_isoformat t h.1 h.2]

theorem str_optionalText (o : Option String) :
    ((match some (optionalText o) with | some .null => none | value => value).map P.str) = o := by
  cases o with
  | none => rfl
  | some s => exact congrArg some (P.str_text s)

theorem parseOptionalTime_isoformat {o : Option Int} (h : ∀ t ∈ o, minTime ≤ t ∧ t ≤ maxTime) {fields : Fields}
    (hfields : fields.lookup "expires_at" = some (optionalText (o.map P.isoformat))) :
    parseOptionalTime P (Document.get? fields "expires_at") = .ok o := by
  rw [Document.get?, hfields]
  cases o with
  | none => rfl
  | some t =>
    show (parseTime P (.text (P.isoformat t))).map some = .ok (some t)
    rw [parseTime_isoformat (h t rfl)]
    rfl

theorem successMarker_scalar (b : Bool) : successMarker (some (.scalar (if b then "true" else "false"))) = some b := by
  cases b <;> rfl

/-- **A record is read back from its document as it was.** -/
theorem parseRecord_dumps {r : SnapshotRecord R A} (h : WellFormed r) :
    parseRecord P (P.dumps (recordDocument P r)) = .ok r := by
  unfold parseRecord
  rw [P.loads_dumps _ (isJson_recordDocument r)]
  obtain ⟨fields, hfields⟩ : ∃ fields, recordDocument P r = .mapping fields := ⟨_, rfl⟩
  have hexpires : parseOptionalTime P (Document.get? fields "expires_at") = .ok r.expiresAt :=
    parseOptionalTime_isoformat h.expiresAt (by cases hfields; rfl)
  have hversion : isVersion (fields.lookup "schema_version") = true := by cases hfields; rfl
  have hsuccessful : successMarker (fields.lookup "successful") = some r.successful := by
    cases hfields
    exact successMarker_scalar r.successful
  have hstored : fields.lookup "stored_at" = some (.text (P.isoformat r.storedAt)) := by cases hfields; rfl
  have hid : fields.lookup "snapshot_id" = some (.text r.snapshotId) := by cases hfields; rfl
  have hkey : fields.lookup "key_digest" = some (.text r.keyDigest) := by cases hfields; rfl
  have hscope : fields.lookup "authentication_scope" = some (.text r.authenticationScope) := by cases hfields; rfl
  have hcapability : fields.lookup "source_capability" = some (.text r.sourceCapability) := by cases hfields; rfl
  have hresource : fields.lookup "resource" = some (P.dumpResource r.resource) := by cases hfields; rfl
  have hartifact : fields.lookup "artifact" = some (.mapping (P.dumpArtifact r.artifact)) := by cases hfields; rfl
  have hetag : (Document.get? fields "etag").map P.str = r.etag := by
    cases hfields
    exact str_optionalText r.etag
  have hmodified : (Document.get? fields "last_modified").map P.str = r.lastModified := by
    cases hfields
    exact str_optionalText r.lastModified
  rw [hfields]
  simp only [bind_eq_ok, ofOption_eq_ok, require_eq_ok, Option.bind_some, fieldsOf, Option.some.injEq, exists_const,
    exists_eq_left', hexpires, hversion, hsuccessful, hstored, hid, hkey, hscope, hcapability, hresource, hartifact,
    hetag, hmodified, parseTime_isoformat h.storedAt, Except.ok.injEq, P.str_text, P.validate_dumpResource, parseArtifact,
    P.validate_dumpArtifact, requireDigest, h.snapshotId, h.keyDigest, h.capability, h.etag, h.lastModified, true_and]
  rfl

/-! ### What a call leaves -/

/-- What a record is to the key it was stored under. -/
structure Stored (P : Platform R A) (key : CacheKey) (r : SnapshotRecord R A) : Prop where
  wellFormed : WellFormed r
  keyDigest : r.keyDigest = key.digest P.hash
  scope : r.authenticationScope = key.authenticationScope
  bounded : (P.dumps (recordDocument P r)).length ≤ maxMetadataBytes

theorem toUtc_eq_ok {label : String} {m : Moment} {t : Int} (h : toUtc label m = .ok t) :
    minTime ≤ t ∧ t ≤ maxTime := by
  cases m with
  | naive => cases h
  | aware utc =>
    rw [toUtc, inRange] at h
    split at h
    · cases h
      assumption
    · cases h

theorem optionalUtc_eq_ok {label : String} {m : Option Moment} {o : Option Int} (h : optionalUtc label m = .ok o) :
    ∀ t ∈ o, minTime ≤ t ∧ t ≤ maxTime := by
  intro t ht
  cases m with
  | none =>
    cases h
    cases ht
  | some moment =>
    rw [optionalUtc] at h
    cases hmoment : toUtc label moment with
    | error err =>
      rw [hmoment] at h
      cases h
    | ok utc =>
      rw [hmoment] at h
      cases h
      cases ht
      exact toUtc_eq_ok hmoment

theorem storedRecord_stored {cas : Cas} {call : StoreCall R A} {r : SnapshotRecord R A}
    (h : storedRecord P cas call = .ok r) : Stored P call.key r ∧ verifyArtifact P cas r.artifact = .ok () := by
  unfold storedRecord at h
  simp only [bind_eq_ok, require_eq_ok, requireDigest, exists_const] at h
  obtain ⟨now, hnow, expiresAt, hexpires, _, hetag, _, hmodified, hcapability, _, hverified, resource, -, artifact,
    hartifact, -, hbound, hkey, hid, hreturn⟩ := h
  cases hreturn
  refine ⟨?_, (sanitizedArtifact_address hverified hartifact).verify hverified⟩
  exact {
    wellFormed := ⟨hid, hkey, hcapability, hetag, hmodified, toUtc_eq_ok hnow, optionalUtc_eq_ok hexpires⟩
    keyDigest := rfl, scope := rfl, bounded := of_decide_eq_true hbound}

/-- The content store at the time of a call. -/
def Call.cas : Call R A → Cas
  | .store cas _ => cas
  | .recordNotModified cas .. => cas

/-- The record that a call writes. -/
def Call.record (P : Platform R A) : Call R A → Except SnapshotError (SnapshotRecord R A)
  | .store cas call => storedRecord P cas call
  | .recordNotModified cas key record request ttlSeconds checkedAt etag lastModified =>
    revalidation P key record request ttlSeconds checkedAt etag lastModified >>= storedRecord P cas

/-- A call looks at no file before it writes its own. -/
theorem perform_eq (files : Metadata) (call : Call R A) : perform P files call = call.record P >>= writeRecord P files := by
  cases call with
  | store cas call => rfl
  | recordNotModified cas key record request ttlSeconds checkedAt etag lastModified =>
    rw [perform, recordNotModified, Call.record]
    cases revalidation P key record request ttlSeconds checkedAt etag lastModified <;> rfl

theorem revalidation_key {key : CacheKey} {record : SnapshotRecord R A} {request : SnapshotRequest} {ttlSeconds : Int}
    {checkedAt : Moment} {etag lastModified : Option String} {call : StoreCall R A}
    (h : revalidation P key record request ttlSeconds checkedAt etag lastModified = .ok call) : call.key = key := by
  unfold revalidation at h
  simp only [bind_eq_ok] at h
  obtain ⟨_, -, current, -, _, -, expiresAt, -, hreturn⟩ := h
  cases hreturn
  rfl

theorem Call.record_stored {call : Call R A} {r : SnapshotRecord R A} (h : call.record P = .ok r) :
    Stored P call.key r ∧ verifyArtifact P call.cas r.artifact = .ok () := by
  cases call with
  | store cas call => exact storedRecord_stored h
  | recordNotModified cas key record request ttlSeconds checkedAt etag lastModified =>
    obtain ⟨call, hcall, hstored⟩ := bind_eq_ok.mp h
    have hkey := revalidation_key hcall
    subst hkey
    exact storedRecord_stored hstored

/-- What a call that returned has done. -/
structure Performed (P : Platform R A) (files : Metadata) (call : Call R A) (r : SnapshotRecord R A)
    (files' : Metadata) : Prop where
  record : call.record P = .ok r
  wrote : writeImmutable files (pathOf r) (P.dumps (recordDocument P r)) = .ok files'

theorem perform_performed {files files' : Metadata} {call : Call R A} {r : SnapshotRecord R A}
    (h : perform P files call = .ok (r, files')) : Performed P files call r files' := by
  rw [perform_eq] at h
  simp only [writeRecord, bind_eq_ok] at h
  obtain ⟨record, hrecord, written, hwrote, hreturn⟩ := h
  cases hreturn
  exact ⟨hrecord, hwrote⟩

theorem Performed.stored {files files' : Metadata} {call : Call R A} {r : SnapshotRecord R A}
    (h : Performed P files call r files') : Stored P call.key r := (Call.record_stored h.record).1

theorem Performed.verified {files files' : Metadata} {call : Call R A} {r : SnapshotRecord R A}
    (h : Performed P files call r files') : verifyArtifact P call.cas r.artifact = .ok () := (Call.record_stored h.record).2

theorem writeImmutable_eq_ok {files files' : Metadata} {path : String × String} {encoded : Bytes}
    (h : writeImmutable files path encoded = .ok files') :
    (∀ existing ∈ files.get? path, existing = encoded) ∧
      ∀ p, files'.get? p = if p = path then some encoded else files.get? p := by
  unfold writeImmutable at h
  cases hpath : files.get? path with
  | none =>
    rw [hpath] at h
    cases h
    exact ⟨fun _ hexisting => (by cases hexisting), fun p => Dict.get?_set files path p encoded⟩
  | some existing =>
    simp only [hpath] at h
    split at h
    · cases h
    · split at h
      · cases h
      · rename_i hsame
        rw [ne_eq, not_not] at hsame
        cases h
        subst hsame
        refine ⟨fun _ hexisting => (Option.some.inj hexisting).symm, fun p => ?_⟩
        split
        · rw [← hpath]
          congr
        · rfl

/-! ### Histories -/

/-- The files are those of the records that calls have returned. -/
structure Recorded (P : Platform R A) (h : History R A) : Prop where
  stored : ∀ e ∈ h.returned, Stored P e.1 e.2
  present : ∀ e ∈ h.returned, h.files.get? (pathOf e.2) = some (P.dumps (recordDocument P e.2))
  returned : ∀ path content, h.files.get? path = some content → ∃ e ∈ h.returned, pathOf e.2 = path

theorem Recorded.next {h : History R A} (hh : Recorded P h) (call : Call R A) : Recorded P (h.next P call) := by
  unfold History.next
  cases hperform : perform P h.files call with
  | error err => exact hh
  | ok result =>
    obtain ⟨r, files⟩ := result
    have hdone := perform_performed hperform
    obtain ⟨hexisting, hfiles⟩ := writeImmutable_eq_ok hdone.wrote
    constructor
    · intro e he
      rw [List.mem_append, List.mem_singleton] at he
      obtain he | rfl := he
      · exact hh.stored e he
      · exact hdone.stored
    · intro e he
      rw [List.mem_append, List.mem_singleton] at he
      rw [hfiles]
      obtain he | rfl := he
      · have hpresent := hh.present e he
        split
        · rename_i hpath
          rw [hpath] at hpresent
          exact congrArg some (hexisting _ hpresent).symm
        · exact hpresent
      · exact if_pos rfl
    · intro path content hcontent
      rw [hfiles] at hcontent
      split at hcontent
      · rename_i hpath
        exact ⟨(call.key, r), by simp, hpath.symm⟩
      · obtain ⟨e, he, hpath⟩ := hh.returned path content hcontent
        exact ⟨e, List.mem_append_left _ he, hpath⟩

theorem history_concat (calls : List (Call R A)) (call : Call R A) :
    history P (calls ++ [call]) = (history P calls).next P call := by
  rw [history, List.foldl_append]
  rfl

theorem history_recorded (calls : List (Call R A)) : Recorded P (history P calls) := by
  induction calls using List.reverseRecOn with
  | nil => exact ⟨fun _ he => (by cases he), fun _ he => (by cases he), fun _ _ hcontent => (by cases hcontent)⟩
  | append_singleton calls call ih =>
    rw [history_concat]
    exact ih.next call

/-- What has been returned is the record of a call. -/
theorem call_of_returned {calls : List (Call R A)} {e : CacheKey × SnapshotRecord R A}
    (he : e ∈ (history P calls).returned) : ∃ call ∈ calls, call.key = e.1 ∧ call.record P = .ok e.2 := by
  induction calls using List.reverseRecOn with
  | nil => cases he
  | append_singleton calls call ih =>
    rw [history_concat, History.next] at he
    have hearlier : e ∈ (history P calls).returned → ∃ c ∈ calls ++ [call], c.key = e.1 ∧ c.record P = .ok e.2 := by
      intro he
      obtain ⟨c, hc, hkey⟩ := ih he
      exact ⟨c, List.mem_append_left _ hc, hkey⟩
    cases hperform : perform P (history P calls).files call with
    | error err =>
      rw [hperform] at he
      exact hearlier he
    | ok result =>
      obtain ⟨r, files⟩ := result
      rw [hperform, List.mem_append, List.mem_singleton] at he
      obtain he | rfl := he
      · exact hearlier he
      · exact ⟨call, by simp, rfl, (perform_performed hperform).record⟩

/-! ### Reading a partition -/

/-- The records that calls have returned for a key. -/
def History.recordsOf (h : History R A) (key : CacheKey) : List (SnapshotRecord R A) :=
  (h.returned.filter fun e => e.1 = key).map Prod.snd

theorem History.mem_recordsOf {h : History R A} {key : CacheKey} {r : SnapshotRecord R A} :
    r ∈ h.recordsOf key ↔ (key, r) ∈ h.returned := by
  simp [recordsOf]

/-- How many different snapshots are stored under a key. -/
def History.snapshotCount (h : History R A) (key : CacheKey) : Nat :=
  ((h.recordsOf key).map SnapshotRecord.snapshotId).dedup.length

theorem mem_partition {files : Metadata} {d : String} {e : (String × String) × Bytes} :
    e ∈ partition files d ↔ files.get? e.1 = some e.2 ∧ e.1.1 = d := by
  rw [partition, List.mem_mergeSort, List.mem_filter, beq_iff_eq, Dict.get?_eq_some_iff]

/-- The names of the files of a partition. -/
def names (files : Metadata) (d : String) : List String := (partition files d).map fun e => e.1.2

theorem nodup_names (files : Metadata) (d : String) : (names files d).Nodup := by
  have hperm : (partition files d).Perm (files.entries.filter fun e => e.1.1 == d) := List.mergeSort_perm _ _
  have hnodup : ((partition files d).map Prod.fst).Nodup :=
    (hperm.map Prod.fst).nodup_iff.mpr (files.nodup.sublist (List.filter_sublist.map Prod.fst))
  rw [names, List.nodup_map_iff_inj_on hnodup.of_map]
  intro e he e' he' hname
  refine List.inj_on_of_nodup_map hnodup he he' (Prod.ext ?_ hname)
  rw [(mem_partition.mp he).2, (mem_partition.mp he').2]

section Reading
variable {h : History R A} {key : CacheKey}

/-- What is returned for another key lies in another partition. -/
def Alone (P : Platform R A) (h : History R A) (key : CacheKey) : Prop :=
  ∀ e ∈ h.returned, e.1.digest P.hash = key.digest P.hash → e.1 = key

theorem Recorded.file (hh : Recorded P h) {r : SnapshotRecord R A} (hr : r ∈ h.recordsOf key) :
    (pathOf r, P.dumps (recordDocument P r)) ∈ partition h.files (key.digest P.hash) := by
  rw [History.mem_recordsOf] at hr
  exact mem_partition.mpr ⟨hh.present _ hr, (hh.stored _ hr).keyDigest⟩

theorem Recorded.record (hh : Recorded P h) (halone : Alone P h key) {e : (String × String) × Bytes}
    (he : e ∈ partition h.files (key.digest P.hash)) :
    ∃ r ∈ h.recordsOf key, e = (pathOf r, P.dumps (recordDocument P r)) := by
  obtain ⟨hcontent, hdigest⟩ := mem_partition.mp he
  obtain ⟨⟨key', r⟩, hr, hpath⟩ := hh.returned _ _ hcontent
  have hsame : key' = key := by
    refine halone _ hr ?_
    rw [← (hh.stored _ hr).keyDigest, ← hdigest, ← hpath]
    rfl
  subst hsame
  have hpresent := hh.present _ hr
  rw [hpath, hcontent] at hpresent
  exact ⟨r, History.mem_recordsOf.mpr hr, Prod.ext hpath.symm (Option.some.inj hpresent)⟩

theorem Stored.read {r : SnapshotRecord R A} (hr : Stored P key r) :
    readRecord P key (P.dumps (recordDocument P r)) = .ok r := by
  unfold readRecord
  simp only [bind_eq_ok, require_eq_ok, exists_const, parseRecord_dumps hr.wellFormed, Except.ok.injEq,
    exists_eq_left', decide_eq_true_eq, hr.keyDigest, hr.scope, beq_self_eq_true, Bool.and_self, true_and]
  exact ⟨hr.bounded, rfl⟩

theorem Recorded.mem_names (hh : Recorded P h) (halone : Alone P h key) {name : String} :
    name ∈ names h.files (key.digest P.hash) ↔ ∃ r ∈ h.recordsOf key, r.snapshotId = name := by
  rw [names, List.mem_map]
  constructor
  · rintro ⟨e, he, rfl⟩
    obtain ⟨r, hr, rfl⟩ := hh.record halone he
    exact ⟨r, hr, rfl⟩
  · rintro ⟨r, hr, rfl⟩
    exact ⟨_, hh.file hr, rfl⟩

/-- A partition has a file for each different snapshot. -/
theorem Recorded.length_partition (hh : Recorded P h) (halone : Alone P h key) :
    (partition h.files (key.digest P.hash)).length = h.snapshotCount key := by
  have hperm : (names h.files (key.digest P.hash)).Perm ((h.recordsOf key).map SnapshotRecord.snapshotId).dedup := by
    rw [List.perm_ext_iff_of_nodup (nodup_names _ _) (List.nodup_dedup _)]
    intro name
    rw [hh.mem_names halone, List.mem_dedup, List.mem_map]
  rw [History.snapshotCount, ← hperm.length_eq, names, List.length_map]

/-- **Within the bound a lookup reads the records that were returned for the key**, and no others. -/
theorem Recorded.records_eq_ok (hh : Recorded P h) (halone : Alone P h key)
    (hcount : h.snapshotCount key ≤ maxRecordsPerKey) :
    ∃ rs, records P h.files key = .ok rs ∧ ∀ r, r ∈ rs ↔ r ∈ h.recordsOf key := by
  have hread : ∀ e ∈ partition h.files (key.digest P.hash), ∃ r, readRecord P key e.2 = .ok r := by
    intro e he
    obtain ⟨r, hr, rfl⟩ := hh.record halone he
    exact ⟨r, (hh.stored _ (History.mem_recordsOf.mp hr)).read⟩
  obtain ⟨rs, hrs, hmem⟩ := mapM_eq_ok hread
  refine ⟨rs, ?_, fun r => ?_⟩
  · have hdigest : isDigest (key.digest P.hash) = true := P.hash.isDigest_hexdigest _
    rw [← hh.length_partition halone] at hcount
    simp only [records, requireDigest, bind_eq_ok, require_eq_ok, exists_const, decide_eq_true_eq]
    exact ⟨hdigest, hcount, hrs⟩
  · rw [hmem]
    constructor
    · rintro ⟨e, he, hok⟩
      obtain ⟨r', hr', rfl⟩ := hh.record halone he
      rw [(hh.stored _ (History.mem_recordsOf.mp hr')).read, Except.ok.injEq] at hok
      exact hok ▸ hr'
    · intro hr
      exact ⟨_, hh.file hr, (hh.stored _ (History.mem_recordsOf.mp hr)).read⟩

/-- Beyond it there is no lookup. -/
theorem Recorded.records_eq_error (hh : Recorded P h) (halone : Alone P h key)
    (hcount : maxRecordsPerKey < h.snapshotCount key) :
    records P h.files key = .error (.integrity "snapshot record count exceeds the lookup bound") := by
  have hdigest : isDigest (key.digest P.hash) = true := P.hash.isDigest_hexdigest _
  rw [← hh.length_partition halone] at hcount
  rw [records, requireDigest, hdigest]
  simp only [require, if_true, decide_eq_false (Nat.not_le.mpr hcount)]
  rfl

end Reading

/-! ### The newest record -/

theorem newest_mem {rs : List (SnapshotRecord R A)} {r : SnapshotRecord R A} (h : newest rs = some r) : r ∈ rs := by
  induction rs generalizing r with
  | nil => cases h
  | cons first rest ih =>
    rw [newest] at h
    cases hrest : newest rest with
    | none =>
      rw [hrest] at h
      cases h
      exact List.mem_cons_self ..
    | some best =>
      simp only [hrest] at h
      split at h
      · cases h
        exact List.mem_cons_of_mem _ (ih hrest)
      · cases h
        exact List.mem_cons_self ..

theorem newest_eq_none {rs : List (SnapshotRecord R A)} : newest rs = none ↔ rs = [] := by
  cases rs with
  | nil => simp [newest]
  | cons first rest =>
    rw [newest]
    cases newest rest with
    | none => simp
    | some best =>
      dsimp only
      split <;> simp

/-- The order that `older` decides. -/
theorem older_iff {r r' : SnapshotRecord R A} : r.older r' = true ↔
    r.storedAt < r'.storedAt ∨ r.storedAt = r'.storedAt ∧ r.snapshotId < r'.snapshotId := by
  simp [SnapshotRecord.older]

theorem newest_greatest {rs : List (SnapshotRecord R A)} {r : SnapshotRecord R A} (h : newest rs = some r) :
    ∀ r' ∈ rs, r'.storedAt < r.storedAt ∨ r'.storedAt = r.storedAt ∧ r'.snapshotId ≤ r.snapshotId := by
  induction rs generalizing r with
  | nil => cases h
  | cons first rest ih =>
    rw [newest] at h
    cases hrest : newest rest with
    | none =>
      rw [hrest] at h
      cases h
      rw [newest_eq_none] at hrest
      intro r' hr'
      rw [hrest, List.mem_singleton] at hr'
      exact .inr ⟨by rw [hr'], by rw [hr']⟩
    | some best =>
      simp only [hrest] at h
      have hbest := ih hrest
      split at h
      · rename_i holder
        cases h
        intro r' hr'
        obtain rfl | hr' := List.mem_cons.mp hr'
        · obtain hlt | ⟨heq, hid⟩ := older_iff.mp holder
          · exact .inl hlt
          · exact .inr ⟨heq, le_of_lt hid⟩
        · exact hbest r' hr'
      · rename_i holder
        cases h
        rw [older_iff, not_or, not_and] at holder
        intro r' hr'
        obtain rfl | hr' := List.mem_cons.mp hr'
        · exact .inr ⟨rfl, le_refl _⟩
        · -- The best of the rest is at most the first.
          obtain hlt | ⟨heq, hid⟩ := hbest r' hr'
          · exact .inl (lt_of_lt_of_le hlt (not_lt.mp holder.1))
          · obtain hlt | hsame := lt_or_eq_of_le (not_lt.mp holder.1)
            · exact .inl (heq ▸ hlt)
            · exact .inr ⟨heq.trans hsame, le_trans hid (not_lt.mp (holder.2 hsame.symm))⟩

end Store

end Fetech.Snapshots
