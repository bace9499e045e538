import Fetech.DoclingArtifacts.Writing

/-! What the digest of a bundle stands for (`inspect_binds`).

The digest is taken of canonical JSON, which can be read back, so it stands for the list of files
with their sizes and digests, for the models, and for whether there is a manifest. In two trees whose
bundles have one digest the walk therefore comes by the same files with the same contents, unless two
of the texts that were hashed on the way collide. The digest says nothing of what the walk does not
come by (`contents`): what lies below a directory that cannot be listed, and the manifest itself, which
may write its counts in several ways. -/
namespace Fetech.DoclingArtifacts
open Lib Lib.Except JsonText

variable {φ : Type} (p : Platform φ)

/-- What the digest of a bundle is taken of. -/
def payload (bundle : ArtifactBundle) : JsonValue φ :=
  if bundle.manifestPresent then manifest bundle.files bundle.models else contentPayload bundle.files

/-- A bundle and the tree it was found in. -/
structure Described (root : Node) (bundle : ArtifactBundle) : Prop where
  files : bundle.files = (contents bundle.manifestPresent root).map (listed p)
  models : bundle.manifestPresent = false → bundle.models = []
  total : bundle.totalBytes = totalBytes bundle.files
  digest : ∃ bytes, canonicalJson p (payload bundle) = .ok bytes ∧ bundle.bundleSha256 = p.hash.hexdigest bytes

/-- What is hashed for a bundle. -/
def hashed (root : Node) (bundle : ArtifactBundle) : List Bytes :=
  (Parsers.encodeDocument p.floats (payload bundle)).toList ++ (contents bundle.manifestPresent root).map Prod.snd

/-- Two different things of two lists have one digest. -/
def Collide (those these : List Bytes) : Prop :=
  ∃ x ∈ those, ∃ y ∈ these, x ≠ y ∧ p.hash.hexdigest x = p.hash.hexdigest y

variable {p}

theorem described_of_inspect {root : Node} {requireManifest : Bool} {bundle : ArtifactBundle}
    (h : inspectBundle p root requireManifest = .ok bundle) : Described p root bundle := by
  unfold inspectBundle at h
  split at h
  · cases h
  · simp only [bind_eq_ok] at h
    obtain ⟨_, -, files, hfiles, bytes, hbytes, heq⟩ := h
    cases heq
    exact ⟨(scan_spec hfiles).1, fun _ => rfl, rfl, bytes, hbytes, rfl⟩
  · simp only [bind_eq_ok, require_eq_ok] at h
    obtain ⟨raw, -, loaded, -, canonical, -, _, -, checked, -, files, hfiles, _, hsame, bytes, hbytes, heq⟩ := h
    cases heq
    rw [← eq_of_beq hsame] at hbytes
    exact ⟨(scan_spec hfiles).1, fun hfalse => absurd hfalse.symm Bool.false_ne_true, rfl, bytes, hbytes, rfl⟩

/-! ### The digest stands for the bundle -/

theorem file_inj : Function.Injective (ArtifactFile.asDict (φ := φ)) := by
  intro a b h
  simp only [ArtifactFile.asDict, JsonValue.object.injEq, List.cons.injEq, Prod.mk.injEq, JsonValue.string.injEq,
    JsonValue.int.injEq, true_and, and_true, Nat.cast_inj] at h
  obtain ⟨hpath, hsha, hsize⟩ := h
  cases a
  cases b
  cases hpath
  cases hsha
  cases hsize
  rfl

theorem model_inj : Function.Injective (ArtifactModel.asDict (φ := φ)) := by
  intro a b h
  simp only [ArtifactModel.asDict, JsonValue.object.injEq, List.cons.injEq, Prod.mk.injEq, JsonValue.string.injEq,
    true_and, and_true] at h
  obtain ⟨hlicense, hevidence, hrepository, hrevision, hsource⟩ := h
  cases a
  cases b
  cases hlicense
  cases hevidence
  cases hrepository
  cases hrevision
  cases hsource
  rfl

/-- What is hashed says what a bundle is of. -/
theorem payload_inj {bundle bundle' : ArtifactBundle} (h : payload (φ := φ) bundle = payload bundle')
    (hmodels : bundle.manifestPresent = false → bundle.models = [])
    (hmodels' : bundle'.manifestPresent = false → bundle'.models = []) :
    bundle.files = bundle'.files ∧ bundle.models = bundle'.models ∧ bundle.manifestPresent = bundle'.manifestPresent := by
  unfold payload at h
  cases hpresent : bundle.manifestPresent with
  | true =>
    cases hpresent' : bundle'.manifestPresent with
    | true =>
      simp only [hpresent, hpresent', if_true, manifest, JsonValue.object.injEq, List.cons.injEq, Prod.mk.injEq,
        JsonValue.array.injEq, true_and] at h
      exact ⟨file_inj.list_map h.2.1, model_inj.list_map h.2.2.1, rfl⟩
    | false =>
      rw [hpresent, hpresent', if_pos rfl, if_neg Bool.false_ne_true, manifest, contentPayload] at h
      have hlength := congrArg List.length (JsonValue.object.inj h)
      cases hlength
  | false =>
    cases hpresent' : bundle'.manifestPresent with
    | true =>
      rw [hpresent, hpresent', if_pos rfl, if_neg Bool.false_ne_true, manifest, contentPayload] at h
      have hlength := congrArg List.length (JsonValue.object.inj h)
      cases hlength
    | false =>
      simp only [hpresent, hpresent', contentPayload, JsonValue.object.injEq, List.cons.injEq, Prod.mk.injEq,
        JsonValue.array.injEq, true_and, Bool.false_eq_true, if_false] at h
      exact ⟨file_inj.list_map h.1, (hmodels hpresent).trans (hmodels' hpresent').symm, rfl⟩

theorem sortKeys_payload (bundle : ArtifactBundle) : sortKeys (φ := φ) (payload bundle) = payload bundle := by
  unfold payload
  split
  · exact sortKeys_manifest _ _
  · exact sortKeys_contentPayload _

theorem unique_payload (bundle : ArtifactBundle) : (payload (φ := φ) bundle).HasUniqueKeys := by
  unfold payload
  split
  · exact unique_manifest _ _
  · exact unique_contentPayload _

theorem fits_payload (bundle : ArtifactBundle) : (payload (φ := φ) bundle).fitsIn 3 = true := by
  unfold payload
  split
  · exact fits_manifest _ _
  · exact fits_contentPayload _

/-- Canonical JSON is read back, so it is of one value only. -/
theorem canonical_inj {bundle bundle' : ArtifactBundle} {bytes : Bytes} (h : canonicalJson p (payload bundle) = .ok bytes)
    (h' : canonicalJson p (payload bundle') = .ok bytes) : payload (φ := φ) bundle = payload bundle' := by
  obtain ⟨text, htext, hbytes⟩ := canonicalJson_eq_ok.mp h
  obtain ⟨text', htext', hbytes'⟩ := canonicalJson_eq_ok.mp h'
  have hsame : text = text' := Option.some.inj ((Utf8.decode_encode hbytes).symm.trans (Utf8.decode_encode hbytes'))
  subst hsame
  have hread : loads p.floats (Parsers.readerHooks p.constant) 3 text = some (sortKeys (payload bundle)) :=
    loads_dumps Parsers.readerHooks_object (fits_payload bundle) (unique_payload bundle) htext
  have hread' : loads p.floats (Parsers.readerHooks p.constant) 3 text = some (sortKeys (payload bundle')) :=
    loads_dumps Parsers.readerHooks_object (fits_payload bundle') (unique_payload bundle') htext'
  rw [sortKeys_payload] at hread hread'
  exact Option.some.inj (hread.symm.trans hread')

/-- Files that are listed alike have the same contents, if no two collide. -/
theorem contents_eq {found found' : List (Text × Bytes)}
    (hfree : ∀ x ∈ found.map Prod.snd, ∀ y ∈ found'.map Prod.snd, p.hash.hexdigest x = p.hash.hexdigest y → x = y)
    (h : found.map (listed p) = found'.map (listed p)) : found = found' := by
  induction found generalizing found' with
  | nil => exact (List.map_eq_nil_iff.mp h.symm).symm
  | cons file found ih =>
    cases found' with
    | nil => cases h
    | cons file' found' =>
      simp only [List.map_cons, List.cons.injEq, listed, ArtifactFile.mk.injEq, digest] at h
      obtain ⟨⟨hpath, -, hdigest⟩, hrest⟩ := h
      have hcontent := hfree file.2 (by simp) file'.2 (by simp) (Text.ofString_inj hdigest)
      rw [Prod.ext hpath hcontent, ih (fun x hx y hy => hfree x (List.mem_cons_of_mem _ hx) y (List.mem_cons_of_mem _ hy)) hrest]

/-- Bundles with one digest are one bundle, of the same files that were walked, if no two texts collide. -/
theorem Described.eq_of_sha {root root' : Node} {bundle bundle' : ArtifactBundle} (hroot : Described p root bundle)
    (hroot' : Described p root' bundle') (hsha : bundle.bundleSha256 = bundle'.bundleSha256)
    (hcollide : ¬ Collide p (hashed p root bundle) (hashed p root' bundle')) :
    bundle = bundle' ∧ contents bundle.manifestPresent root = contents bundle'.manifestPresent root' := by
  have hfree : ∀ x ∈ hashed p root bundle, ∀ y ∈ hashed p root' bundle', p.hash.hexdigest x = p.hash.hexdigest y → x = y :=
    fun x hx y hy heq => by_contra fun hne => hcollide ⟨x, hx, y, hy, hne, heq⟩
  obtain ⟨bytes, hbytes, hdigest⟩ := hroot.digest
  obtain ⟨bytes', hbytes', hdigest'⟩ := hroot'.digest
  have hmem : bytes ∈ hashed p root bundle := by
    rw [hashed, ofOption_eq_ok.mp hbytes]
    exact List.mem_append_left _ List.mem_cons_self
  have hmem' : bytes' ∈ hashed p root' bundle' := by
    rw [hashed, ofOption_eq_ok.mp hbytes']
    exact List.mem_append_left _ List.mem_cons_self
  have hsame : bytes = bytes' := hfree bytes hmem bytes' hmem' (hdigest.symm.trans (hsha.trans hdigest'))
  subst hsame
  obtain ⟨hfiles, hmodels, hpresent⟩ := payload_inj (canonical_inj hbytes hbytes') hroot.models hroot'.models
  constructor
  · have htotal : bundle.totalBytes = bundle'.totalBytes := by rw [hroot.total, hroot'.total, hfiles]
    cases bundle
    cases bundle'
    cases hsha
    cases hfiles
    cases hmodels
    cases hpresent
    cases htotal
    rfl
  · apply contents_eq (p := p)
    · intro x hx y hy heq
      exact hfree x (List.mem_append_right _ hx) y (List.mem_append_right _ hy) heq
    · rw [← hroot.files, ← hroot'.files, hfiles]

/-- **The digest of a bundle stands for what was walked**: bundles that were found in two trees, by a manifest
or without one, and have one digest are the same bundle, and the walks through the trees come by the same
files with the same contents, unless two texts that were hashed for them collide. -/
theorem inspect_binds (p : Platform φ) {root root' : Node} {required required' : Bool} {bundle bundle' : ArtifactBundle}
    (h : inspectBundle p root required = .ok bundle) (h' : inspectBundle p root' required' = .ok bundle')
    (hsha : bundle.bundleSha256 = bundle'.bundleSha256) :
    (bundle = bundle' ∧ contents bundle.manifestPresent root = contents bundle'.manifestPresent root') ∨
      Collide p (hashed p root bundle) (hashed p root' bundle') := by
  have hroot := described_of_inspect h
  have hroot' := described_of_inspect h'
  by_cases hcollide : Collide p (hashed p root bundle) (hashed p root' bundle')
  · exact .inr hcollide
  · exact .inl (hroot.eq_of_sha hroot' hsha hcollide)

/-- A tree passes if it has a manifest and the digest that is expected. -/
theorem verifyBundle_eq_ok {root : Node} {expectedSha256 : Text} {bundle : ArtifactBundle} :
    verifyBundle p root expectedSha256 = .ok bundle ↔ isSha256 expectedSha256 = true ∧
      inspectBundle p root true = .ok bundle ∧ Text.ofString bundle.bundleSha256 = expectedSha256 := by
  simp only [verifyBundle, bind_eq_ok, require_eq_ok, beq_iff_eq]
  constructor
  · intro h
    obtain ⟨_, hsha, found, hfound, _, hexpected, heq⟩ := h
    cases heq
    exact ⟨hsha, hfound, hexpected⟩
  · intro h
    obtain ⟨hsha, hfound, hexpected⟩ := h
    exact ⟨(), hsha, bundle, hfound, (), hexpected, rfl⟩

/-- A digest that is expected lets the files of one walk pass, unless two texts collide. -/
theorem verified_eq {root root' : Node} {expectedSha256 : Text} {bundle bundle' : ArtifactBundle}
    (h : verifyBundle p root expectedSha256 = .ok bundle) (h' : verifyBundle p root' expectedSha256 = .ok bundle')
    (hcollide : ¬ Collide p (hashed p root bundle) (hashed p root' bundle')) :
    bundle = bundle' ∧ contents bundle.manifestPresent root = contents bundle'.manifestPresent root' := by
  obtain ⟨-, hfound, hexpected⟩ := verifyBundle_eq_ok.mp h
  obtain ⟨-, hfound', hexpected'⟩ := verifyBundle_eq_ok.mp h'
  have hsha : bundle.bundleSha256 = bundle'.bundleSha256 := Text.ofString_inj (hexpected.trans hexpected'.symm)
  exact (described_of_inspect hfound).eq_of_sha (described_of_inspect hfound') hsha hcollide

def licensedTree : Node := .directory 1 true [(Text.ofString "LICENSE", .regular [] 1 1)]

def licensedFiles : List ArtifactFile := [listed plainPlatform (Text.ofString "LICENSE", [])]

/-- The same files, listed in another order beside a directory with nothing in it. -/
def cachedTree : Node := .directory 1 true [(Text.ofString "cache", .directory 1 true []), (Text.ofString "LICENSE", .regular [] 1 1)]

theorem inspect_licensed {root : Node} (hfree : root.child manifestName = none)
    (hscan : scanArtifactFiles plainPlatform root false = .ok licensedFiles) {bytes : Bytes}
    (hbytes : canonicalJson plainPlatform (contentPayload licensedFiles) = .ok bytes) :
    inspectBundle plainPlatform root = .ok
      { bundleSha256 := plainPlatform.hash.hexdigest bytes, files := licensedFiles, models := [], totalBytes := 0
        manifestPresent := false } := by
  rw [inspectBundle, hfree]
  dsimp only
  rw [hscan]
  simp only [bind, Except.bind, hbytes]
  rfl

theorem inspect_binds_licensed : ∃ bundle, inspectBundle plainPlatform licensedTree = .ok bundle ∧
    inspectBundle plainPlatform cachedTree = .ok bundle ∧
    ((bundle = bundle ∧ contents bundle.manifestPresent licensedTree = contents bundle.manifestPresent cachedTree) ∨
      Collide plainPlatform (hashed plainPlatform licensedTree bundle) (hashed plainPlatform cachedTree bundle)) := by
  have hwritten : (Parsers.encodeDocument plainPlatform.floats (contentPayload licensedFiles)).isSome = true := by
    decide +kernel
  obtain ⟨bytes, hbytes⟩ := Option.isSome_iff_exists.mp hwritten
  have hlicensed := inspect_licensed (show licensedTree.child manifestName = none by rfl) (by rfl) (ofOption_eq_ok.mpr hbytes)
  have hcached := inspect_licensed (show cachedTree.child manifestName = none by rfl) (by rfl) (ofOption_eq_ok.mpr hbytes)
  exact ⟨_, hlicensed, hcached, inspect_binds plainPlatform hlicensed hcached rfl⟩

end Fetech.DoclingArtifacts
