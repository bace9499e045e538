import Fetech.Snapshots.Sample

/-! Which record a lookup finds.

As long as what the content store has given back it goes on giving back, a lookup finds the
newest successful record of its key, however long the history, until more than
`_MAX_RECORDS_PER_KEY` snapshots are stored under it: stores do not count them, every
lookup does, and from then on none returns. -/
namespace Fetech.Snapshots
open Lib Lib.Except Storage

section Lookup
variable {R A : Type} {P : Platform R A}

/-- What was in the content store is in it unchanged. -/
structure Kept (cas cas' : Cas) : Prop where
  get : ∀ uri size body, cas uri size = .ok body → cas' uri size = .ok body

theorem Kept.verify {cas cas' : Cas} (h : Kept cas cas') {a : A} (hverified : verifyArtifact P cas a = .ok ()) :
    verifyArtifact P cas' a = .ok () := by
  rw [verifyArtifact_eq_ok] at hverified ⊢
  obtain ⟨huri, body, hbody, hrest⟩ := hverified
  exact ⟨huri, body, h.get _ _ _ hbody, hrest⟩

theorem returned_verified {calls : List (Call R A)} {cas : Cas} (hkept : ∀ call ∈ calls, Kept call.cas cas) :
    ∀ e ∈ (history P calls).returned, verifyArtifact P cas e.2.artifact = .ok () := by
  induction calls using List.reverseRecOn with
  | nil =>
    intro e he
    cases he
  | append_singleton calls call ih =>
    have hearlier := ih fun c hc => hkept c (List.mem_append_left _ hc)
    rw [history_concat, History.next]
    cases hperform : perform P (history P calls).files call with
    | error err => exact hearlier
    | ok result =>
      obtain ⟨r, files⟩ := result
      intro e he
      rw [List.mem_append, List.mem_singleton] at he
      obtain he | rfl := he
      · exact hearlier e he
      · exact (hkept call (by simp)).verify (perform_performed hperform).verified

/-- The successful record of these with the greatest time and, of those, the greatest id. -/
inductive Latest (rs : List (SnapshotRecord R A)) : Option (SnapshotRecord R A) → Prop
  | none (h : ∀ r ∈ rs, r.successful = false) : Latest rs none
  | some {r : SnapshotRecord R A} (hmem : r ∈ rs) (hsuccessful : r.successful = true)
      (hgreatest : ∀ r' ∈ rs, r'.successful = true →
        r'.storedAt < r.storedAt ∨ r'.storedAt = r.storedAt ∧ r'.snapshotId ≤ r.snapshotId) : Latest rs (some r)

theorem latest_newest {rs rs' : List (SnapshotRecord R A)} (h : ∀ r, r ∈ rs ↔ r ∈ rs') :
    Latest rs' (newest (rs.filter (·.successful))) := by
  cases hmax : newest (rs.filter (·.successful)) with
  | none =>
    rw [newest_eq_none, List.filter_eq_nil_iff] at hmax
    exact .none fun r hr => Bool.eq_false_iff.mpr (hmax r ((h r).mpr hr))
  | some r =>
    have hmem := List.mem_filter.mp (newest_mem hmax)
    refine .some ((h r).mp hmem.1) hmem.2 fun r' hr' hsuccessful => ?_
    exact newest_greatest hmax r' (List.mem_filter.mpr ⟨(h r').mpr hr', hsuccessful⟩)

/-- The end of the stale window can be computed, unless the record is fresh. -/
def WindowFits (found : Option (SnapshotRecord R A)) (current stale : Int) : Prop :=
  ∀ r ∈ found, ∀ t ∈ r.expiresAt, current < t ∨ t + stale * 1000000 ≤ maxTime

theorem disposed_record {r : SnapshotRecord R A} (hr : WellFormed r) {current stale : Int} (hstale : 0 ≤ stale)
    (hfits : WindowFits (some r) current stale) :
    ∃ answer, disposed r current stale = .ok answer ∧ answer.record = some r := by
  unfold disposed
  cases hexpires : r.expiresAt with
  | none => exact ⟨_, rfl, rfl⟩
  | some t =>
    dsimp only
    split
    · exact ⟨_, rfl, rfl⟩
    · rename_i hexpired
      have hend : t + stale * 1000000 ≤ maxTime := by
        cases hfits r rfl t hexpires with
        | inl hfresh => exact absurd hfresh hexpired
        | inr hend => exact hend
      have hbegin := (hr.expiresAt t hexpires).1
      rw [plusSeconds, inRange, if_pos ⟨by omega, hend⟩]
      simp only [bind, Except.bind]
      split <;> exact ⟨_, rfl, rfl⟩

/-- What the lookups for a key answer. -/
structure Answers (P : Platform R A) (cas : Cas) (files : Metadata) (key : CacheKey)
    (found : Option (SnapshotRecord R A)) : Prop where
  latest : latestSuccessful P cas files key = .ok found
  answer : ∀ now current stale, toUtc "cache lookup time" now = .ok current → 0 ≤ stale → stale ≤ maxTtlSeconds →
    stale = 0 ∨ WindowFits found current stale →
    ∃ answer, lookup P cas files key now stale = .ok answer ∧ answer.record = found

/-- All lookups for a key raise this. -/
structure Raises (P : Platform R A) (cas : Cas) (files : Metadata) (key : CacheKey) (err : SnapshotError) : Prop where
  latest : latestSuccessful P cas files key = .error err
  answer : ∀ now current stale, toUtc "cache lookup time" now = .ok current → 0 ≤ stale → stale ≤ maxTtlSeconds →
    lookup P cas files key now stale = .error err

theorem lookup_eq {cas : Cas} {files : Metadata} {key : CacheKey} {now : Moment} {current stale : Int}
    (hnow : toUtc "cache lookup time" now = .ok current) (h0 : 0 ≤ stale) (hmax : stale ≤ maxTtlSeconds) :
    lookup P cas files key now stale = latestSuccessful P cas files key >>= fun
      | none => .ok {disposition := .miss}
      | some record => disposed record current stale := by
  rw [lookup, decide_eq_true ⟨h0, hmax⟩, hnow]
  rfl

theorem Raises.of_records {cas : Cas} {files : Metadata} {key : CacheKey} {err : SnapshotError}
    (h : records P files key = .error err) : Raises P cas files key err := by
  have hlatest : latestSuccessful P cas files key = .error err := by
    rw [latestSuccessful, h]
    rfl
  refine ⟨hlatest, fun now current stale hnow h0 hmax => ?_⟩
  rw [lookup_eq hnow h0 hmax, hlatest]
  rfl

theorem Answers.of_latest {cas : Cas} {files : Metadata} {key : CacheKey} {found : Option (SnapshotRecord R A)}
    (hwell : ∀ r ∈ found, WellFormed r) (h : latestSuccessful P cas files key = .ok found) :
    Answers P cas files key found := by
  refine ⟨h, fun now current stale hnow h0 hmax hfits => ?_⟩
  rw [lookup_eq hnow h0 hmax, h]
  cases found with
  | none => exact ⟨_, rfl, rfl⟩
  | some r =>
    refine disposed_record (hwell r rfl) h0 ?_
    intro r' hr' t ht
    cases hfits with
    | inl hzero =>
      cases hr'
      have hend := ((hwell r rfl).expiresAt t ht).2
      exact .inr (by omega)
    | inr hfits => exact hfits r' hr' t ht

/-- What a history makes of the lookups for a key. -/
structure Finds (P : Platform R A) (cas : Cas) (h : History R A) (key : CacheKey) : Prop where
  within : h.snapshotCount key ≤ maxRecordsPerKey →
    ∃ found, Latest (h.recordsOf key) found ∧ Answers P cas h.files key found
  beyond : maxRecordsPerKey < h.snapshotCount key →
    Raises P cas h.files key (.integrity "snapshot record count exceeds the lookup bound")

theorem alone_of_collisionFree {calls : List (Call R A)} {key : CacheKey}
    (h : CollisionFree P.hash (key :: calls.map Call.key)) : Alone P (history P calls) key := by
  intro e he hdigest
  obtain ⟨call, hcall, hkey, -⟩ := call_of_returned he
  refine h.eq_of_digest ?_ (List.mem_cons_self ..) hdigest
  rw [← hkey]
  exact List.mem_cons_of_mem _ (List.mem_map_of_mem hcall)

/-- **After any calls a lookup finds the newest successful record of its key**, as long as no
more than the bound are stored; **beyond the bound it finds none**, whatever it looks for. -/
theorem lookups_find_latest {calls : List (Call R A)} {cas : Cas} {key : CacheKey}
    (hkept : ∀ call ∈ calls, Kept call.cas cas) (hfree : CollisionFree P.hash (key :: calls.map Call.key)) :
    Finds P cas (history P calls) key := by
  have hrecorded := history_recorded (P := P) calls
  have halone := alone_of_collisionFree hfree
  constructor
  · intro hcount
    obtain ⟨rs, hrs, hmem⟩ := hrecorded.records_eq_ok halone hcount
    have hlatest := latest_newest hmem
    cases hmax : newest (rs.filter (·.successful)) with
    | none =>
      rw [hmax] at hlatest
      refine ⟨none, hlatest, .of_latest (fun _ hr => by cases hr) ?_⟩
      rw [latestSuccessful, hrs]
      simp only [bind, Except.bind, hmax]
      rfl
    | some r =>
      rw [hmax] at hlatest
      have hr := History.mem_recordsOf.mp ((hmem r).mp (List.mem_filter.mp (newest_mem hmax)).1)
      refine ⟨some r, hlatest, .of_latest (fun r' hr' => ?_) ?_⟩
      · cases hr'
        exact (hrecorded.stored _ hr).wellFormed
      · rw [latestSuccessful, hrs]
        simp only [bind, Except.bind, hmax, returned_verified hkept _ hr]
        rfl
  · intro hcount
    exact .of_records (hrecorded.records_eq_error halone hcount)

end Lookup

/-! ### Ten thousand stores and one -/

/-- A store in each of the first `n` seconds. -/
def storing (n : Nat) : List (Call SamplePage SampleBody) := (List.range n).map fun i => .store sampleCas (storeAt "public" none i)

theorem storing_returned {n : Nat} (hn : n ≤ 10001) :
    (history samplePlatform (storing n)).returned = (List.range n).map fun i => (sampleKey "public", recordAt "public" i) := by
  induction n with
  | zero => rfl
  | succ n ih =>
    have hreturned := ih (by omega)
    have hfree : (history samplePlatform (storing n)).files.get? (hex64 0, hex64 (n + 1)) = none := by
      rw [Option.eq_none_iff_forall_ne_some]
      intro content hcontent
      obtain ⟨e, he, hpath⟩ := (history_recorded (storing n)).returned _ content hcontent
      rw [hreturned, List.mem_map] at he
      obtain ⟨i, hi, rfl⟩ := he
      have hsame := hex64_inj (by have := List.mem_range.mp hi; omega) (by omega) (Prod.mk.inj hpath).2
      have hlt := List.mem_range.mp hi
      omega
    have hscope : "public".toList.length ≤ 100 := by decide
    have hstore := store_storeAt hscope none (by omega) hfree
    rw [storing, List.range_succ, List.map_append, List.map_singleton, ← storing, history_concat, History.next, perform,
      hstore, List.map_append, List.map_singleton, ← hreturned]
    rfl

theorem storing_count {n : Nat} (hn : n ≤ 10001) :
    (history samplePlatform (storing n)).snapshotCount (sampleKey "public") = n := by
  have hrecords : (history samplePlatform (storing n)).recordsOf (sampleKey "public") = (List.range n).map (recordAt "public") := by
    rw [History.recordsOf, storing_returned hn, List.filter_eq_self.mpr (by simp), List.map_map]
    rfl
  have hnodup : (((List.range n).map (recordAt "public")).map SnapshotRecord.snapshotId).Nodup := by
    rw [List.map_map, List.nodup_map_iff_inj_on List.nodup_range]
    intro i hi j hj hsame
    rw [List.mem_range] at hi hj
    have hids := hex64_inj (m := i + 1) (n := j + 1) (by omega) (by omega) hsame
    omega
  rw [History.snapshotCount, hrecords, hnodup.dedup, List.length_map, List.length_map, List.length_range]

theorem storing_collisionFree (n : Nat) :
    CollisionFree samplePlatform.hash (sampleKey "public" :: (storing n).map Call.key) := by
  have hkeys : ∀ k ∈ sampleKey "public" :: (storing n).map Call.key, k = sampleKey "public" := by
    intro k hk
    rw [List.mem_cons, storing, List.map_map, List.mem_map] at hk
    obtain rfl | ⟨i, -, rfl⟩ := hk <;> rfl
  constructor
  intro k hk k' hk' _
  rw [hkeys k hk, hkeys k' hk']

theorem ten_thousand_stores : (history samplePlatform (storing 10000)).snapshotCount (sampleKey "public") = maxRecordsPerKey ∧
    Finds samplePlatform sampleCas (history samplePlatform (storing 10000)) (sampleKey "public") := by
  refine ⟨storing_count (by decide), lookups_find_latest (fun call hcall => ?_) (storing_collisionFree 10000)⟩
  obtain ⟨i, -, rfl⟩ := List.mem_map.mp hcall
  exact ⟨fun _ _ _ h => h⟩

/-- After one store more the page is still stored in each second, and no lookup returns. -/
theorem one_store_too_many :
    (∀ i < 10001, (sampleKey "public", recordAt "public" i) ∈ (history samplePlatform (storing 10001)).returned) ∧
    Raises samplePlatform sampleCas (history samplePlatform (storing 10001)).files (sampleKey "public")
      (.integrity "snapshot record count exceeds the lookup bound") := by
  constructor
  · intro i hi
    rw [storing_returned (Nat.le_refl _)]
    exact List.mem_map.mpr ⟨i, List.mem_range.mpr hi, rfl⟩
  · refine .of_records ((history_recorded _).records_eq_error (alone_of_collisionFree (storing_collisionFree _)) ?_)
    rw [storing_count (Nat.le_refl _)]
    decide

end Fetech.Snapshots
