import Fetech.DoclingArtifacts
import Fetech.Lib.Lists

/-! What a scan finds.

A scan that returns lists the files of the tree in the order of the walk, each with the digest of
what is in it (`scan_spec`), and a manifest that appears in the root makes no difference to a scan
that leaves it out (`scan_withFile`). -/
namespace Fetech.DoclingArtifacts
open Lib Lib.Except

/-! ### The files of a tree -/

/-- The regular files of one directory, by path. -/
def visitContents (excludeManifest : Bool) (visit : Visit) : List (Text × Bytes) :=
  visit.fileNames.filterMap fun entry =>
    match entry.2 with
    | .regular content _ _ =>
      let path := relativePath visit.directory entry.1
      if excludeManifest && path == manifestName then none else some (path, content)
    | _ => none

/-- The regular files that a walk comes by, in its order, and the manifest among them or not. A directory
that cannot be listed ends the walk there, so nothing below it is among them. -/
def contents (excludeManifest : Bool) (root : Node) : List (Text × Bytes) :=
  (walk [] root).flatMap (visitContents excludeManifest)

variable {φ : Type} (p : Platform φ)

/-- How a file is listed. -/
def listed (file : Text × Bytes) : ArtifactFile where
  path := file.1
  size := file.2.length
  sha256 := digest p file.2

/-- What a list of files of an accepted tree satisfies. -/
structure Listing (files : List ArtifactFile) : Prop where
  paths : ∀ file ∈ files, validateRelativePath p file.path = .ok ()
  portable : validateUniquePortablePaths p (files.map ArtifactFile.path) = .ok ()

section
variable {p}

/-- What a scan has recorded of some files. -/
def Recorded (p : Platform φ) (found : List (Text × Bytes)) (s : Scan) : Prop :=
  s.records = found.map (listed p) ∧ ∀ file ∈ s.records, validateRelativePath p file.path = .ok ()

theorem recorded_scanFile {excludeManifest : Bool} {device : Nat} {directory : List Text} {found : List (Text × Bytes)}
    {s t : Scan} {entry : Text × Node} (h : Recorded p found s)
    (hstep : scanFile p excludeManifest device directory s entry = .ok t) :
    Recorded p (found ++ visitContents excludeManifest ⟨directory, [], [entry]⟩) t := by
  unfold scanFile at hstep
  dsimp only at hstep
  split at hstep
  · rename_i hskipped
    cases hstep
    obtain ⟨name, node⟩ := entry
    have hnone : visitContents excludeManifest ⟨directory, [], [(name, node)]⟩ = [] := by
      cases node <;> simp_all [visitContents]
    rwa [hnone, List.append_nil]
  · rename_i hkept
    simp only [bind_eq_ok] at hstep
    obtain ⟨_, hpath, hstep⟩ := hstep
    split at hstep
    · rename_i content _ _ hnode
      simp only [bind_eq_ok, require_eq_ok] at hstep
      obtain ⟨_, -, _, -, heq⟩ := hstep
      cases heq
      have hone : visitContents excludeManifest ⟨directory, [], [entry]⟩ = [(relativePath directory entry.1, content)] := by
        simp only [visitContents, List.filterMap_cons, hnode, hkept, List.filterMap_nil]
        rfl
      refine ⟨by rw [hone, List.map_append, h.1]; rfl, List.forall_mem_append.mpr ⟨h.2, ?_⟩⟩
      exact List.forall_mem_singleton.mpr hpath
    · cases hstep

theorem recorded_scanVisit {excludeManifest : Bool} {device : Nat} {found : List (Text × Bytes)} {s t : Scan}
    {visit : Visit} (h : Recorded p found s) (hstep : scanVisit p excludeManifest device s visit = .ok t) :
    Recorded p (found ++ visitContents excludeManifest visit) t := by
  simp only [scanVisit, bind_eq_ok, require_eq_ok] at hstep
  obtain ⟨_, -, _, -, hfiles⟩ := hstep
  have hstart : Recorded p (found ++ visitContents excludeManifest ⟨visit.directory, [], []⟩)
      {s with directoryCount := s.directoryCount + 1} := by
    rw [visitContents, List.filterMap_nil, List.append_nil]
    exact h
  have hrun := foldlM_history (I := fun entries s =>
    Recorded p (found ++ visitContents excludeManifest ⟨visit.directory, [], entries⟩) s) ?_ hstart hfiles
  · exact hrun
  · intro before entry s t hs hentry
    have hnext := recorded_scanFile hs hentry
    rw [List.append_assoc] at hnext
    have happend : visitContents excludeManifest ⟨visit.directory, [], before ++ [entry]⟩ =
        visitContents excludeManifest ⟨visit.directory, [], before⟩ ++
          visitContents excludeManifest ⟨visit.directory, [], [entry]⟩ := List.filterMap_append
    rw [happend]
    exact hnext

/-- **A scan that returns** lists the files of the tree, by paths that are portable. -/
theorem scan_spec {root : Node} {excludeManifest : Bool} {files : List ArtifactFile}
    (h : scanArtifactFiles p root excludeManifest = .ok files) :
    files = (contents excludeManifest root).map (listed p) ∧ Listing p files := by
  unfold scanArtifactFiles at h
  split at h
  · simp only [bind_eq_ok] at h
    obtain ⟨s, hs, _, hportable, heq⟩ := h
    cases heq
    have hstart : Recorded p (([] : List Visit).flatMap (visitContents excludeManifest)) {} := ⟨rfl, List.forall_mem_nil _⟩
    have hrun := foldlM_history (I := fun visits s => Recorded p (visits.flatMap (visitContents excludeManifest)) s)
      (fun before visit s t hs hvisit => ?_) hstart hs
    · exact ⟨hrun.1, hrun.2, hportable⟩
    · rw [List.flatMap_append, List.flatMap_singleton]
      exact recorded_scanVisit hs hvisit
  · cases h

theorem isHex_of_digit {ch : Char} (h : "0123456789abcdef".toList.contains ch = true) :
    isHex (CodePoint.ofChar ch) = true := by
  have hall : "0123456789abcdef".toList.all (fun ch => isHex (CodePoint.ofChar ch)) = true := by decide
  exact List.all_eq_true.mp hall ch (List.contains_iff_mem.mp h)

theorem isSha256_digest (content : Bytes) : isSha256 (digest p content) = true := by
  have hdigest := p.hash.isDigest_hexdigest content
  rw [Storage.isDigest, Bool.and_eq_true] at hdigest
  rw [isSha256, Bool.and_eq_true, digest, Text.ofString, List.length_map]
  refine ⟨hdigest.1, List.all_eq_true.mpr fun c hc => ?_⟩
  obtain ⟨ch, hch, rfl⟩ := List.mem_map.mp hc
  exact isHex_of_digit (List.all_eq_true.mp hdigest.2 ch hch)

end

/-! ### A manifest in the root -/

theorem filter_byName {α : Type} (keep : Text × α → Bool) (entries : List (Text × α)) :
    (byName entries).filter keep = byName (entries.filter keep) := by
  have : IsTrans (Text × α) fun a b => a.1 ≤ b.1 := ⟨fun a b c => le_trans⟩
  have : Std.Total fun (a b : Text × α) => a.1 ≤ b.1 := ⟨fun a b => le_total a.1 b.1⟩
  exact Lists.filter_insertionSort keep entries

/-- What a turn leaves alone can be left out of a loop. -/
theorem foldlM_filter {σ α ε : Type} {f : σ → α → Except ε σ} {keep : α → Bool}
    (hskip : ∀ s a, keep a = false → f s a = .ok s) (s : σ) (l : List α) : l.foldlM f s = (l.filter keep).foldlM f s := by
  induction l generalizing s with
  | nil => rfl
  | cons a l ih =>
    rw [List.foldlM_cons, List.filter_cons]
    cases hkeep : keep a with
    | false =>
      rw [hskip s a hkeep]
      exact ih s
    | true =>
      rw [if_pos rfl, List.foldlM_cons]
      apply congrArg
      funext t
      exact ih t

theorem flatMap_nonempty {α β : Type} (l : List (α × List β)) :
    l.flatMap Prod.snd = (l.filter (!·.2.isEmpty)).flatMap Prod.snd := by
  induction l with
  | nil => rfl
  | cons a l ih =>
    rw [List.flatMap_cons, List.filter_cons, ih]
    cases ha : a.2 with
    | nil => simp
    | cons b rest => simp [ha]

theorem walkChildren_append (parts : List Text) (children more : List (Text × Node)) :
    walkChildren parts (children ++ more) = walkChildren parts children ++ walkChildren parts more := by
  induction children with
  | nil => rw [walkChildren, List.nil_append, List.nil_append]
  | cons entry children ih =>
    obtain ⟨name, node⟩ := entry
    rw [List.cons_append, walkChildren, walkChildren, ih, List.cons_append]

/-- A file adds no directory to the walk. -/
theorem flatMap_walkChildren_file (parts : List Text) (children : List (Text × Node)) (name : Text) (content : Bytes)
    (device links : Nat) :
    (byName (walkChildren parts (children ++ [(name, .regular content device links)]))).flatMap Prod.snd =
      (byName (walkChildren parts children)).flatMap Prod.snd := by
  have hfile : walkChildren parts [(name, .regular content device links)] = [(name, [])] := rfl
  rw [flatMap_nonempty, filter_byName, walkChildren_append, hfile, List.filter_append, List.filter_cons_of_neg (by simp),
    List.filter_nil, List.append_nil, ← filter_byName, ← flatMap_nonempty]

theorem relativePath_root (name : Text) : relativePath [] name = name := List.intercalate_singleton

/-- The manifest is in the root, or nothing under its name is. -/
theorem name_ne_of_child {root : Node} (h : root.child manifestName = none) :
    ∀ entry ∈ root.children, entry.1 ≠ manifestName := by
  intro entry hentry heq
  rw [Node.child, Option.map_eq_none_iff, List.find?_eq_none] at h
  exact h entry hentry (decide_eq_true heq)

theorem child_withFile {device : Nat} {listable : Bool} {children : List (Text × Node)} (content : Bytes)
    (h : (Node.directory device listable children).child manifestName = none) :
    ((Node.directory device listable children).withFile manifestName content).child manifestName =
      some (.regular content device 1) := by
  rw [Node.child, Option.map_eq_none_iff, Node.children] at h
  rw [Node.withFile, Node.child]
  show Option.map Prod.snd ((children ++ [(manifestName, Node.regular content device 1)]).find? _) = _
  rw [List.find?_append, h, Option.none_or, List.find?_singleton, if_pos (decide_eq_true rfl)]
  rfl

/-- **The manifest is not part of what it describes.** -/
theorem scan_withFile (p : Platform φ) {root : Node} (h : root.child manifestName = none) (content : Bytes) :
    scanArtifactFiles p (root.withFile manifestName content) true = scanArtifactFiles p root true := by
  cases root with
  | directory device listable children =>
    have hnames := name_ne_of_child h
    cases listable with
    | false => rfl
    | true =>
      have hfiles : ∀ s, (byName ((children ++ [(manifestName, Node.regular content device 1)]).filter (!·.2.isDirectory))).foldlM
          (scanFile p true device []) s = (byName (children.filter (!·.2.isDirectory))).foldlM (scanFile p true device []) s := by
        intro s
        have hskip : ∀ (s : Scan) (entry : Text × Node), (!decide (entry.1 = manifestName)) = false →
            scanFile p true device [] s entry = .ok s := by
          intro s entry hentry
          have hname : entry.1 = manifestName := by simpa using hentry
          rw [scanFile, relativePath_root, hname]
          rfl
        rw [foldlM_filter hskip, filter_byName, List.filter_append, List.filter_append,
          List.filter_cons_of_pos (by rfl), List.filter_nil, List.filter_cons_of_neg (by simp), List.filter_nil,
          List.append_nil, List.filter_eq_self.mpr]
        intro entry hentry
        simpa using hnames entry (List.mem_of_mem_filter hentry)
      have hdirectories : (children ++ [(manifestName, Node.regular content device 1)]).filter (·.2.isDirectory) =
          children.filter (·.2.isDirectory) := by
        rw [List.filter_append, List.filter_cons_of_neg (by simp [Node.isDirectory]), List.filter_nil, List.append_nil]
      simp only [scanArtifactFiles, Node.withFile, walk, flatMap_walkChildren_file, hdirectories, List.foldlM_cons, scanVisit,
        hfiles]
  | regular content' device links => rfl
  | link toDirectory => rfl
  | special => rfl

end Fetech.DoclingArtifacts
