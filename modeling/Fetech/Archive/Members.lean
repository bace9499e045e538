import Mathlib.Data.List.Nodup
import Fetech.Archive.Names

/-! The members that pass from the worker to its parent (`fetech/adapters/archive.py`).

What both sides check is one property of a list of members (`Acceptable`): the worker returns
nothing else (`acceptable_of_extractMembers`), the parent lets nothing else in
(`acceptable_of_validateWorkerMembers`) and lets in all of it (`validate_workerResponse`). So
they agree on good archives, and a hostile worker gets nothing past its parent. -/
namespace Fetech.Archive
open Lib Lib.Except

/-- The sizes of the contents, together. -/
def totalSize (members : List Member) : Int := (members.map fun m => (m.2.length : Int)).sum

variable (t : CaseTables)

/-- Members whose names stand for themselves, of which none is an archive. -/
def Storable (members : List Member) : Prop :=
  ∀ m ∈ members, validateName m.1 = .ok m.1 ∧ isNested t m.1 m.2 = false

/-- What both sides ask of a list of members. -/
structure Acceptable (limits : ArchiveLimits) (members : List Member) : Prop where
  storable : Storable t members
  distinct : (members.map fun m => t.casefold m.1).Nodup
  size : totalSize members ≤ limits.maximumExpanded
  count : (members.length : Int) ≤ limits.maximumMembers

/-- What holds of the variables of an extraction after `n` entries. -/
structure Extracted (limits : ArchiveLimits) (n : Nat) (s : Extraction) : Prop where
  storable : Storable t s.output
  recorded : List.Sublist (s.output.map fun m => t.casefold m.1).reverse s.seen
  distinct : s.seen.Nodup
  expanded : s.expanded = totalSize s.output
  size : s.expanded ≤ limits.maximumExpanded
  count : s.output.length ≤ n

section
variable {t} {limits : ArchiveLimits}

theorem totalSize_append (members : List Member) (m : Member) :
    totalSize (members ++ [m]) = totalSize members + m.2.length := by
  simp [totalSize]

theorem rejectNested_eq_ok {name : Text} {content : List UInt8} {u : Unit} :
    rejectNested t name content = .ok u ↔ isNested t name content = false := by
  simp [rejectNested]

theorem Extracted.start (t : CaseTables) (limits : ArchiveLimits) : Extracted t limits 0 {} where
  storable _ hm := nomatch hm
  recorded := List.Sublist.refl _
  distinct := List.nodup_nil
  expanded := rfl
  size := limits.expanded_pos.le
  count := Nat.le_refl 0

/-- An entry that is no file leaves its name behind. -/
theorem Extracted.skip {n : Nat} {s : Extraction} (h : Extracted t limits n s) {name : Text} {seen : List Text}
    (hseen : recordName t name s.seen = .ok seen) : Extracted t limits (n + 1) {s with seen} := by
  obtain ⟨hnew, rfl⟩ := recordName_eq_ok.mp hseen
  exact ⟨h.storable, h.recorded.cons _, List.nodup_cons.mpr ⟨hnew, h.distinct⟩, h.expanded, h.size,
    h.count.trans (Nat.le_succ n)⟩

/-- A member comes out. -/
theorem Extracted.add {n : Nat} {s : Extraction} (h : Extracted t limits n s) {name normalized : Text}
    {seen : List Text} {content : List UInt8} (hname : validateName name = .ok normalized)
    (hseen : recordName t normalized s.seen = .ok seen) (hplain : isNested t normalized content = false)
    (hsize : s.expanded + content.length ≤ limits.maximumExpanded) :
    Extracted t limits (n + 1)
      {output := s.output ++ [(normalized, content)], expanded := s.expanded + content.length, seen} := by
  obtain ⟨hnew, rfl⟩ := recordName_eq_ok.mp hseen
  refine ⟨?_, ?_, List.nodup_cons.mpr ⟨hnew, h.distinct⟩, ?_, hsize, ?_⟩
  · intro m hm
    obtain hm | hm := List.mem_append.mp hm
    · exact h.storable m hm
    · rw [List.mem_singleton.mp hm]
      exact ⟨validateName_idem hname, hplain⟩
  · rw [List.map_append, List.reverse_append]
    exact h.recorded.cons_cons _
  · show s.expanded + content.length = totalSize (s.output ++ [(normalized, content)])
    rw [totalSize_append, h.expanded]
  · rw [List.length_append]
    exact Nat.succ_le_succ h.count

/-- What an extraction comes to is acceptable. -/
theorem Extracted.acceptable {n : Nat} {s : Extraction} (h : Extracted t limits n s) (hn : (n : Int) ≤ limits.maximumMembers) :
    Acceptable t limits s.output where
  storable := h.storable
  distinct := by
    rw [← List.nodup_reverse]
    exact h.distinct.sublist h.recorded
  size := h.expanded ▸ h.size
  count := by
    have := h.count
    omega

/-- A loop whose turns extract comes to acceptable members. -/
theorem acceptable_of_foldlM {α : Type} {f : Extraction → α → Except ArchiveError Extraction} {items : List α}
    {s : Extraction} (hstep : ∀ n s s', ∀ a ∈ items, Extracted t limits n s → f s a = .ok s' → Extracted t limits (n + 1) s')
    (hcount : (items.length : Int) ≤ limits.maximumMembers) (h : items.foldlM f {} = .ok s) :
    Acceptable t limits s.output := by
  have hend : Extracted t limits (0 + items.length) s := foldlM_invariant hstep (.start t limits) h
  exact hend.acceptable (by rwa [Nat.zero_add])

/-! ### What the worker returns -/

variable {r : ArchiveReader}

theorem extracted_addZipMember {n : Nat} {s s' : Extraction} {info : ZipEntry} (h : Extracted r.tables limits n s)
    (hstep : addZipMember r limits s info = .ok s') : Extracted r.tables limits (n + 1) s' := by
  simp only [addZipMember, bind_eq_ok, require_eq_ok] at hstep
  obtain ⟨name, hname, seen, hseen, _, -, hstep⟩ := hstep
  split at hstep
  · cases hstep
    exact h.skip hseen
  · simp only [bind_eq_ok, require_eq_ok, rejectNested_eq_ok, decide_eq_true_eq] at hstep
    obtain ⟨_, -, _, -, _, hsize, content, -, _, hcontent, _, hplain, hstep⟩ := hstep
    cases hstep
    rw [← hcontent] at hsize ⊢
    exact h.add hname hseen hplain hsize

theorem extracted_addTarMember {body : List UInt8} {n : Nat} {s s' : Extraction} {member : TarEntry}
    (h : Extracted r.tables limits n s) (hstep : addTarMember r body limits s member = .ok s') :
    Extracted r.tables limits (n + 1) s' := by
  simp only [addTarMember, bind_eq_ok, require_eq_ok] at hstep
  obtain ⟨name, hname, seen, hseen, _, -, hstep⟩ := hstep
  split at hstep
  · cases hstep
    exact h.skip hseen
  · simp only [bind_eq_ok, require_eq_ok, rejectNested_eq_ok, ofOption_eq_ok, decide_eq_true_eq] at hstep
    obtain ⟨_, -, _, hsize, _, -, _, -, content, -, _, hcontent, _, hplain, hstep⟩ := hstep
    cases hstep
    rw [← hcontent] at hsize ⊢
    exact h.add hname hseen hplain hsize

/-- **The worker returns acceptable members only.** -/
theorem acceptable_of_extractMembers {body : List UInt8} {members : List Member}
    (h : extractMembers r body limits.maximumMembers limits.maximumExpanded limits.maximumRatio = .ok members) :
    Acceptable r.tables limits members := by
  simp only [extractMembers, limits.make_fields, bind_eq_ok, Except.ok.injEq, exists_eq_left', require_eq_ok] at h
  obtain ⟨_, -, h⟩ := h
  split at h
  · simp only [extractZip, bind_eq_ok, require_eq_ok, decide_eq_true_eq] at h
    obtain ⟨infos, -, _, hcount, s, hs, h⟩ := h
    cases h
    exact acceptable_of_foldlM (fun _ _ _ _ _ => extracted_addZipMember) hcount hs
  · have htar : extractTar r body limits = .ok members := by
      split at h
      · cases h
      · exact h
    simp only [extractTar, bind_eq_ok, require_eq_ok, decide_eq_true_eq] at htar
    obtain ⟨entries, -, _, hcount, s, hs, htar⟩ := htar
    cases htar
    exact acceptable_of_foldlM (fun _ _ _ _ _ => extracted_addTarMember) hcount hs

/-! ### What the parent lets in -/

variable {φ : Type}

theorem extracted_addWorkerMember {n : Nat} {s s' : Extraction} {item : JsonValue φ} (h : Extracted t limits n s)
    (hstep : addWorkerMember t limits s item = .ok s') : Extracted t limits (n + 1) s' := by
  unfold addWorkerMember at hstep
  split at hstep
  · simp only [bind_eq_ok, require_eq_ok] at hstep
    obtain ⟨_, -, hstep⟩ := hstep
    split at hstep
    · simp only [bind_eq_ok, require_eq_ok, rejectNested_eq_ok, ofOption_eq_ok, decide_eq_true_eq] at hstep
      obtain ⟨name, hname, seen, hseen, content, -, _, hsize, _, hplain, hstep⟩ := hstep
      cases hstep
      exact h.add hname hseen hplain hsize
    · cases hstep
  · cases hstep

/-- **The parent lets in acceptable members only**, whatever the worker answers. -/
theorem acceptable_of_validateWorkerMembers {response : JsonValue φ} {members : List Member}
    (h : validateWorkerMembers t limits response = .ok members) : Acceptable t limits members := by
  unfold validateWorkerMembers at h
  split at h
  · simp only [bind_eq_ok, require_eq_ok] at h
    obtain ⟨_, -, h⟩ := h
    split at h
    · simp only [bind_eq_ok, require_eq_ok, decide_eq_true_eq] at h
      obtain ⟨_, hcount, s, hs, h⟩ := h
      cases h
      exact acceptable_of_foldlM (fun _ _ _ _ _ => extracted_addWorkerMember) hcount hs
    · cases h
  · cases h

/-- What there is after the members so far, and no directories. -/
def collected (t : CaseTables) (members : List Member) : Extraction where
  output := members
  expanded := totalSize members
  seen := (members.map fun m => t.casefold m.1).reverse

/-- The two fields of a member are found under their names. -/
theorem memberFields (body name : JsonValue φ) :
    let fields := [(Text.ofString "body", body), (Text.ofString "name", name)]
    JsonValue.hasKeys fields ["body", "name"] = true ∧ JsonValue.get? fields "name" = some name ∧
      JsonValue.get? fields "body" = some body := by
  have hdiffer : ¬ Text.ofString "body" = Text.ofString "name" := by decide
  simp [JsonValue.hasKeys, JsonValue.get?, hdiffer]

/-- One more acceptable member is let in. -/
theorem addWorkerMember_collected {front : List Member} {m : Member} {rest : List Member}
    (h : Acceptable t limits (front ++ m :: rest)) :
    addWorkerMember t limits (collected t front) (workerMember m : JsonValue φ) = .ok (collected t (front ++ [m])) := by
  obtain ⟨hname, hplain⟩ := h.storable m (List.mem_append_right _ List.mem_cons_self)
  have hnew : t.casefold m.1 ∉ (collected t front).seen := by
    have hdistinct := h.distinct
    rw [List.map_append, List.map_cons, List.nodup_append] at hdistinct
    intro hmem
    exact hdistinct.2.2 _ (List.mem_reverse.mp hmem) _ List.mem_cons_self rfl
  have hsize : totalSize front + m.2.length ≤ limits.maximumExpanded := by
    have hall := h.size
    have hrest : 0 ≤ totalSize rest := by
      apply List.sum_nonneg
      intro n hn
      obtain ⟨m, -, rfl⟩ := List.mem_map.mp hn
      exact Int.natCast_nonneg _
    simp only [totalSize, List.map_append, List.map_cons, List.sum_append, List.sum_cons] at hall hrest ⊢
    omega
  have hseen : recordName t m.1 (collected t front).seen = .ok (collected t (front ++ [m])).seen :=
    recordName_eq_ok.mpr ⟨hnew, by simp [collected]⟩
  obtain ⟨hkeys, hget, hget'⟩ := memberFields (φ := φ) (.string (Base64.encode m.2)) (.string m.1)
  unfold addWorkerMember workerMember
  simp only [hkeys, hget, hget', hname, Base64.decode_encode]
  simp only [bind_eq_ok, require_eq_ok, rejectNested_eq_ok, ofOption_eq_ok, decide_eq_true_eq]
  refine ⟨(), trivial, m.1, rfl, _, hseen, m.2, rfl, (), hsize, (), hplain, ?_⟩
  show Except.ok _ = Except.ok _
  rw [collected, collected, totalSize_append]

/-- The members that are still to come are let in, after those that were. -/
theorem foldlM_addWorkerMember (front : List Member) {rest : List Member} (h : Acceptable t limits (front ++ rest)) :
    (rest.map (workerMember (φ := φ))).foldlM (addWorkerMember t limits) (collected t front) =
      .ok (collected t (front ++ rest)) := by
  induction rest generalizing front with
  | nil =>
    rw [List.append_nil]
    rfl
  | cons m rest ih =>
    have hall : front ++ m :: rest = (front ++ [m]) ++ rest := by simp
    rw [List.map_cons, List.foldlM_cons, addWorkerMember_collected h, hall]
    exact ih (front ++ [m]) (hall ▸ h)

/-- **The parent lets in every list of acceptable members**, as it is. -/
theorem validate_workerResponse {members : List Member} (h : Acceptable t limits members) :
    validateWorkerMembers t limits (workerResponse members : JsonValue φ) = .ok members := by
  have hkeys : JsonValue.hasKeys [(Text.ofString "members", JsonValue.array (φ := φ) (members.map workerMember))]
      ["members"] = true := by simp [JsonValue.hasKeys, JsonValue.get?]
  have hget : JsonValue.get? [(Text.ofString "members", JsonValue.array (φ := φ) (members.map workerMember))] "members" =
      some (.array (members.map workerMember)) := by simp [JsonValue.get?]
  unfold validateWorkerMembers workerResponse
  simp only [hkeys, hget]
  simp only [bind_eq_ok, require_eq_ok, decide_eq_true_eq, List.length_map]
  exact ⟨(), trivial, (), h.count, collected t members, foldlM_addWorkerMember [] h, rfl⟩

/-! ### What the parent raises -/

/-- An `AdapterExecutionError` or a `ValueError`. -/
def ArchiveError.isRefusal : ArchiveError → Bool
  | .library _ => false
  | _ => true

/-- Nothing but refusals is raised. -/
def Refuses {α : Type} (x : Except ArchiveError α) : Prop := ∀ err, x = .error err → err.isRefusal = true

theorem Refuses.bind {α β : Type} {x : Except ArchiveError α} {f : α → Except ArchiveError β} (hx : Refuses x)
    (hf : ∀ a, Refuses (f a)) : Refuses (x >>= f) := by
  intro err herr
  cases x with
  | error raised =>
    cases herr
    exact hx _ rfl
  | ok a => exact hf a err herr

theorem Refuses.ok {α : Type} (a : α) : Refuses (.ok a) := fun _ h => nomatch h

theorem Refuses.error {α : Type} {err : ArchiveError} (h : err.isRefusal = true) : Refuses (.error err : Except _ α) := by
  intro raised heq
  cases heq
  exact h

theorem Refuses.require (ok : Bool) {err : ArchiveError} (h : err.isRefusal = true) : Refuses (require ok err) := by
  cases ok with
  | false => exact .error h
  | true => exact .ok ()

theorem Refuses.ofOption {α : Type} (o : Option α) {err : ArchiveError} (h : err.isRefusal = true) :
    Refuses (ofOption err o) := by
  cases o with
  | none => exact .error h
  | some a => exact .ok a

theorem Refuses.foldlM {α σ : Type} {f : σ → α → Except ArchiveError σ} (hf : ∀ s a, Refuses (f s a)) (items : List α)
    (s : σ) : Refuses (items.foldlM f s) := by
  induction items generalizing s with
  | nil => exact .ok s
  | cons a rest ih => exact .bind (hf s a) ih

theorem refuses_validateName (name : Text) : Refuses (validateName name) :=
  .bind (.require _ rfl) fun _ => .bind (.ofOption _ rfl) fun _ => .bind (.require _ rfl) fun _ =>
    .bind (.require _ rfl) fun _ => .bind (.require _ rfl) fun _ => .ok _

theorem refuses_addWorkerMember (s : Extraction) (item : JsonValue φ) : Refuses (addWorkerMember t limits s item) := by
  unfold addWorkerMember
  split
  · refine .bind (.require _ rfl) fun _ => ?_
    split
    · exact .bind (refuses_validateName _) fun _ => .bind (.bind (.require _ rfl) fun _ => .ok _) fun _ =>
        .bind (.ofOption _ rfl) fun _ => .bind (.require _ rfl) fun _ => .bind (.require _ rfl) fun _ => .ok _
    · exact .error rfl
  · exact .error rfl

theorem refuses_validateWorkerMembers (response : JsonValue φ) : Refuses (validateWorkerMembers t limits response) := by
  unfold validateWorkerMembers
  split
  · refine .bind (.require _ rfl) fun _ => ?_
    split
    · exact .bind (.require _ rfl) fun _ => .bind (.foldlM refuses_addWorkerMember _ _) fun _ => .ok _
    · exact .error rfl
  · exact .error rfl

end

/-- What the parent may answer to a worker: members that can be stored anywhere, or a refusal. -/
def Answered (t : CaseTables) (limits : ArchiveLimits) : Except ArchiveError (List Member) → Prop
  | .ok members =>
    (∀ m ∈ members, Portable m.1 ∧ isNested t m.1 m.2 = false) ∧ (members.map fun m => t.casefold m.1).Nodup ∧
      (members.length : Int) ≤ limits.maximumMembers ∧ totalSize members ≤ limits.maximumExpanded
  | .error err => err.isRefusal = true

/-- **The two sides of the process boundary agree, and the parent trusts nobody**: whatever the
worker extracts comes through as it is, and to any value at all the parent answers with portable
names that differ, within the limits and without nested archives, or refuses it. -/
theorem parent_agrees_with_worker (r : ArchiveReader) (φ : Type) (limits : ArchiveLimits) :
    (∀ body members,
      extractMembers r body limits.maximumMembers limits.maximumExpanded limits.maximumRatio = .ok members →
        validateWorkerMembers r.tables limits (workerResponse members : JsonValue φ) = .ok members) ∧
      ∀ response : JsonValue φ, Answered r.tables limits (validateWorkerMembers r.tables limits response) := by
  constructor
  · intro body members h
    exact validate_workerResponse (acceptable_of_extractMembers h)
  · intro response
    cases h : validateWorkerMembers r.tables limits response with
    | error err => exact refuses_validateWorkerMembers response err h
    | ok members =>
      have hmembers := acceptable_of_validateWorkerMembers h
      refine ⟨fun m hm => ?_, hmembers.distinct, hmembers.count, hmembers.size⟩
      obtain ⟨hname, hplain⟩ := hmembers.storable m hm
      exact ⟨portable_of_validateName hname, hplain⟩

/-- A control character, by its category `Cc`. -/
def isCategoryCc (c : CodePoint) : Bool := c.val < 32 || (127 ≤ c.val && c.val < 160)

/-- `DEL` comes through in a name. -/
theorem delete_in_name : ¬ ∀ (t : CaseTables) (limits : ArchiveLimits) (response : JsonValue Unit) (members : List Member),
    validateWorkerMembers t limits response = .ok members → ∀ m ∈ members, ∀ c ∈ m.1, isCategoryCc c = false := by
  intro h
  have hname : (0x7f : CodePoint) ∈ ([0x61, 0x7f] : Text) := by decide
  have hcome := h ⟨id, id⟩ ⟨1, 1, 1, by decide, by decide, by decide⟩ (workerResponse [([0x61, 0x7f], [])])
    [([0x61, 0x7f], [])] (by rfl) _ List.mem_cons_self _ hname
  cases hcome

end Fetech.Archive
