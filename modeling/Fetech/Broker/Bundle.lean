import Fetech.Broker
import Fetech.Media.Transcripts
import Mathlib.Data.List.ReduceOption

/-! What `search` answers, and when.

A bundle holds as many tokens as it says, within its limit, no source twice, notes of the vault
only, and accounts for everything that was retrieved (`Sound`). There is a bundle exactly if
everything that the programs printed could be read (`search_answers_iff`). A program that is
missing, fails, stalls or prints too much is no obstacle, and neither is text that is no JSON; JSON
of another shape is. -/
namespace Fetech.Broker
open Lib Lib.Except Lib.JsonText

variable {φ : Type}

/-! ### Texts with an encoding -/

theorem encodable_iff {s : Text} : Text.encodable s = true ↔ ∀ c ∈ s, c.isSurrogate = false := by
  simp [Text.encodable]

theorem encodable_of_mem {s t : Text} (ht : Text.encodable t = true) (h : ∀ c ∈ s, c ∈ t) : Text.encodable s = true :=
  encodable_iff.mpr fun c hc => encodable_iff.mp ht c (h c hc)

theorem mem_strip {s : Text} {c : CodePoint} (h : c ∈ Media.strip s) : c ∈ s := by
  rw [Media.strip, List.mem_reverse] at h
  exact List.dropWhile_sublist _ |>.mem (List.mem_reverse.mp ((List.dropWhile_sublist _).mem h))

theorem mem_truncate {s : Text} {n : Nat} {c : CodePoint} (h : c ∈ truncate s n) : c ∈ s := List.mem_of_mem_take h

theorem Outcome.encodable_stdout {program : Text} {outcome : Outcome} {r : ProcessResult} (h : outcome.result program = some r) :
    Text.encodable r.stdout = true := by
  unfold Outcome.result at h
  split at h
  · exact Option.some.inj h ▸ rfl
  · cases h
  · exact Option.some.inj h ▸ rfl
  · rename_i stdout stderr
    split at h
    · exact Option.some.inj h ▸ rfl
    · rw [← Option.some.inj h]
      exact Utf8.encodable_decodeReplace stdout

theorem encodable_matchedLines {stdout : Text} (h : Text.encodable stdout = true) (n : Nat) :
    Text.encodable (matchedLines stdout n) = true := by
  refine encodable_iff.mpr fun c hc => ?_
  have hc := mem_truncate hc
  rw [Media.joinLines] at hc
  obtain hc | ⟨line, hline, hc⟩ := Lists.mem_intercalate hc
  · rw [List.mem_singleton.mp hc]
    rfl
  · have hc := Media.mem_splitFrom (List.mem_of_mem_take hline) hc
    exact encodable_iff.mp h c hc

/-! ### Sources -/

theorem exists_contextSource_iff {p : Platform φ} {sourceType : SourceType} {title locator excerpt : Text} {score : φ}
    {provenance : String} : (∃ source, contextSource p sourceType title locator excerpt score provenance = .ok source) ↔
      Text.encodable title = true ∧ Text.encodable locator = true ∧ Text.encodable excerpt = true ∧ p.isNonnegative score = true := by
  unfold contextSource
  split
  · rename_i h
    simp only [Bool.and_eq_true] at h
    split <;> simp_all
  · rename_i h
    simp only [Bool.and_eq_true] at h
    simp
    tauto

theorem contextSource_fields {p : Platform φ} {sourceType : SourceType} {title locator excerpt : Text} {score : φ}
    {provenance : String} {source : ContextSource φ}
    (h : contextSource p sourceType title locator excerpt score provenance = .ok source) :
    source.sourceType = sourceType ∧ source.locator = locator := by
  unfold contextSource at h
  split at h
  · split at h
    · cases h
      exact ⟨rfl, rfl⟩
    · cases h
  · cases h

theorem deduplicate_eq_nil {p : Platform φ} {sources : List (ContextSource φ)} : deduplicate p sources = [] ↔ sources = [] := by
  rw [deduplicate, Shortlist.firsts_eq_nil]
  rw [← List.length_eq_zero_iff, (p.sorted_perm sources).length_eq, List.length_eq_zero_iff]

theorem mem_deduplicate {p : Platform φ} {sources : List (ContextSource φ)} {s : ContextSource φ}
    (h : s ∈ deduplicate p sources) : s ∈ sources :=
  (p.sorted_perm sources).mem_iff.mp ((Shortlist.firsts_sublist _ _).mem h)

theorem length_deduplicate (p : Platform φ) (sources : List (ContextSource φ)) :
    (deduplicate p sources).length ≤ sources.length := by
  rw [← (p.sorted_perm sources).length_eq]
  exact (Shortlist.firsts_sublist _ _).length_le

/-! ### Programs -/

/-- A program can be given the arguments, and a result came of it. -/
def Prints (world : World) (cwd : PosixPath) (arguments : List Text) (r : ProcessResult) : Prop :=
  (cwd.asPosix :: arguments).all isPassable = true ∧ (world.outcome arguments).result (arguments.headD []) = some r

theorem run_eq_ok {world : World} {cwd : PosixPath} {arguments : List Text} {r : ProcessResult} :
    run world cwd arguments = .ok r ↔ Prints world cwd arguments r := by
  simp only [run, bind_eq_ok, require_eq_ok, ofOption_eq_ok, Prints]
  exact exists_const Unit

theorem Prints.unique {world : World} {cwd : PosixPath} {arguments : List Text} {r r' : ProcessResult}
    (h : Prints world cwd arguments r) (h' : Prints world cwd arguments r') : r = r' :=
  Option.some.inj (h.2.symm.trans h'.2)

theorem decimal_eq_ok {n : Nat} {text : Text} : decimal n = .ok text ↔ (writeNat n).length ≤ maximumDigits ∧ writeNat n = text := by
  simp only [decimal, bind_eq_ok, require_eq_ok, decide_eq_true_eq, pure, Except.pure, Except.ok.injEq]
  exact exists_const Unit

/-! ### The graph -/

section
variable (b : ContextBroker) (p : Platform φ) (world : World) (question : Text) (n : Nat)

/-- Whether `graphify` is asked. -/
def GraphAsked : Prop := n ≠ 0 ∧ world.graphExists question = some true

/-- What `graphify` printed is an answer. -/
def GraphAnswer (r : ProcessResult) : Prop := r.returncode = 0 ∧ Media.strip r.stdout ≠ []

/-- The path of the graph can be looked at. If `graphify` is asked it can be, and if it answers the path has
an encoding. -/
def GraphReadable : Prop :=
  (n ≠ 0 → world.graphExists question ≠ none) ∧
    (GraphAsked world question n → (writeNat n).length ≤ maximumDigits ∧
      ∃ r, Prints world b.repository (b.graphifyArguments question (writeNat n)) r ∧
        (GraphAnswer r → Text.encodable b.graphPath.asPosix = true))

/-- `graphify` is not asked or does not answer. -/
def GraphSilent : Prop :=
  GraphAsked world question n → ∀ r, Prints world b.repository (b.graphifyArguments question (writeNat n)) r → ¬ GraphAnswer r

variable {b p world question n}

theorem hasGraph_of_asked (h : GraphAsked world question n) : ContextBroker.hasGraph world question n = .ok true := by
  rw [ContextBroker.hasGraph, if_neg h.1, h.2]
  rfl

theorem hasGraph_eq_false (hlook : n ≠ 0 → world.graphExists question ≠ none) (h : ¬ GraphAsked world question n) :
    ContextBroker.hasGraph world question n = .ok false := by
  unfold ContextBroker.hasGraph
  by_cases hn : n = 0
  · exact if_pos hn
  · rw [if_neg hn]
    cases hexists : world.graphExists question with
    | none => exact absurd hexists (hlook hn)
    | some found =>
      cases found with
      | false => rfl
      | true => exact absurd ⟨hn, hexists⟩ h

theorem looked_of_graphify {sources : List (ContextSource φ)} (hok : b.graphify p world question n = .ok sources) (hn : n ≠ 0) :
    world.graphExists question ≠ none := by
  obtain ⟨asked, hasked, -⟩ := bind_eq_ok.mp hok
  rw [ContextBroker.hasGraph, if_neg hn, ofOption_eq_ok] at hasked
  rw [hasked]
  exact Option.some_ne_none asked

theorem graphify_of_not_asked (hlook : n ≠ 0 → world.graphExists question ≠ none) (h : ¬ GraphAsked world question n) :
    b.graphify p world question n = .ok [] := by
  rw [ContextBroker.graphify, hasGraph_eq_false hlook h]
  rfl

/-- A program that is asked printed something. -/
theorem exists_prints_of_graphify (h : GraphAsked world question n) {sources : List (ContextSource φ)}
    (hok : b.graphify p world question n = .ok sources) :
    (writeNat n).length ≤ maximumDigits ∧ ∃ r, Prints world b.repository (b.graphifyArguments question (writeNat n)) r := by
  rw [ContextBroker.graphify, hasGraph_of_asked h] at hok
  obtain ⟨_, hasked, hok⟩ := bind_eq_ok.mp hok
  cases hasked
  obtain ⟨budget, hbudget, hok⟩ := bind_eq_ok.mp hok
  obtain ⟨hdigits, rfl⟩ := decimal_eq_ok.mp hbudget
  obtain ⟨r, hr, -⟩ := bind_eq_ok.mp hok
  exact ⟨hdigits, r, run_eq_ok.mp hr⟩

section
variable (h : GraphAsked world question n) (hdigits : (writeNat n).length ≤ maximumDigits) {r : ProcessResult}
  (hr : Prints world b.repository (b.graphifyArguments question (writeNat n)) r)
include h hdigits hr

theorem graphify_of_not_answer (hanswer : ¬ GraphAnswer r) : b.graphify p world question n = .ok [] := by
  rw [ContextBroker.graphify, hasGraph_of_asked h]
  show (decimal n >>= _) = _
  rw [decimal_eq_ok.mpr ⟨hdigits, rfl⟩]
  show (run world b.repository _ >>= _) = _
  rw [run_eq_ok.mpr hr]
  refine if_pos ?_
  by_cases hcode : r.returncode = 0
  · exact .inr (not_not.mp fun hne => hanswer ⟨hcode, hne⟩)
  · exact .inl hcode

theorem graphify_of_answer (hanswer : GraphAnswer r) :
    b.graphify p world question n = (do
      let source ← contextSource p .graphify (Text.ofString "Repository architecture graph") b.graphPath.asPosix
        (truncate (Media.strip r.stdout) n) (p.floats.ofText (Text.ofString "1.0")) "graphify query"
      return [source]) := by
  rw [ContextBroker.graphify, hasGraph_of_asked h]
  show (decimal n >>= _) = _
  rw [decimal_eq_ok.mpr ⟨hdigits, rfl⟩]
  show (run world b.repository _ >>= _) = _
  rw [run_eq_ok.mpr hr]
  exact if_neg fun hor => hor.elim (fun hcode => hcode hanswer.1) fun hempty => hanswer.2 hempty

end

theorem exists_graphify_iff : (∃ sources, b.graphify p world question n = .ok sources) ↔ GraphReadable b world question n := by
  by_cases hasked : GraphAsked world question n
  · constructor
    · rintro ⟨sources, hok⟩
      refine ⟨looked_of_graphify hok, fun _ => ?_⟩
      obtain ⟨hdigits, r, hr⟩ := exists_prints_of_graphify hasked hok
      refine ⟨hdigits, r, hr, fun hanswer => ?_⟩
      rw [graphify_of_answer hasked hdigits hr hanswer] at hok
      obtain ⟨source, hsource, -⟩ := bind_eq_ok.mp hok
      exact (exists_contextSource_iff.mp ⟨source, hsource⟩).2.1
    · intro hreadable
      obtain ⟨hdigits, r, hr, hlocator⟩ := hreadable.2 hasked
      by_cases hanswer : GraphAnswer r
      · have hexcerpt : Text.encodable (truncate (Media.strip r.stdout) n) = true :=
          encodable_of_mem (Outcome.encodable_stdout hr.2) fun c hc => mem_strip (mem_truncate hc)
        have htitle : Text.encodable (Text.ofString "Repository architecture graph") = true := by decide
        obtain ⟨source, hsource⟩ := exists_contextSource_iff.mpr ⟨htitle, hlocator hanswer, hexcerpt, p.constants.1⟩
        exact ⟨[source], by rw [graphify_of_answer hasked hdigits hr hanswer, hsource]; rfl⟩
      · exact ⟨[], graphify_of_not_answer hasked hdigits hr hanswer⟩
  · constructor
    · rintro ⟨sources, hok⟩
      exact ⟨looked_of_graphify hok, fun h => absurd h hasked⟩
    · intro hreadable
      exact ⟨[], graphify_of_not_asked hreadable.1 hasked⟩

/-- What `_graphify` returns is one source, or none if the program is silent. -/
theorem graphify_sources {sources : List (ContextSource φ)} (hok : b.graphify p world question n = .ok sources) :
    (sources = [] ↔ GraphSilent b world question n) ∧ ∀ s ∈ sources, s.sourceType = .graphify := by
  by_cases hasked : GraphAsked world question n
  · obtain ⟨hdigits, r, hr⟩ := exists_prints_of_graphify hasked hok
    by_cases hanswer : GraphAnswer r
    · rw [graphify_of_answer hasked hdigits hr hanswer] at hok
      obtain ⟨source, hsource, hok⟩ := bind_eq_ok.mp hok
      cases hok
      refine ⟨⟨nofun, fun hsilent => absurd hanswer (hsilent hasked r hr)⟩, fun s hs => ?_⟩
      rw [List.mem_singleton.mp hs]
      exact (contextSource_fields hsource).1
    · rw [graphify_of_not_answer hasked hdigits hr hanswer] at hok
      cases hok
      exact ⟨⟨fun _ _ r' hr' => hr.unique hr' ▸ hanswer, fun _ => rfl⟩, nofun⟩
  · rw [graphify_of_not_asked (looked_of_graphify hok) hasked] at hok
    cases hok
    exact ⟨⟨fun _ h => absurd h hasked, fun _ => rfl⟩, nofun⟩

end

/-! ### The notes -/

section
variable {p : Platform φ} {vault : PosixPath} {share : Nat} {document : JsonValue φ}

variable (p share document) in
/-- Texts and a score that a source can have can be made of a document. -/
def NoteReadable (path : PosixPath) : Prop :=
  ∃ snippet title score, str p (fieldOr document "snippet" (.string [])) = some snippet ∧
    str p (fieldOr document "title" (.string (Text.ofString "QMD result"))) = some title ∧
    float p (fieldOr document "score" (.float (p.floats.ofText (Text.ofString "0.0")))) = some score ∧
    Text.encodable title = true ∧ Text.encodable path.asPosix = true ∧ Text.encodable (truncate snippet share) = true ∧
    p.isNonnegative score = true

variable (p vault share document) in
/-- A path that a document names can be resolved, and if it is in the vault the note can be read. -/
def DocumentReadable : Prop :=
  ∃ found, locatorPath p vault document = .ok found ∧ ∀ path ∈ found, NoteReadable p share document path

theorem exists_note_iff {path : PosixPath} : (∃ source, note p share path document = .ok source) ↔ NoteReadable p share document path := by
  simp only [note, bind_eq_ok, ofOption_eq_ok]
  constructor
  · intro hnote
    obtain ⟨source, snippet, hsnippet, title, htitle, score, hscore, hsource⟩ := hnote
    exact ⟨snippet, title, score, hsnippet, htitle, hscore, exists_contextSource_iff.mp ⟨source, hsource⟩⟩
  · intro hreadable
    obtain ⟨snippet, title, score, hsnippet, htitle, hscore, hvalid⟩ := hreadable
    obtain ⟨source, hsource⟩ := exists_contextSource_iff.mpr hvalid
    exact ⟨source, snippet, hsnippet, title, htitle, score, hscore, hsource⟩

theorem note_fields {path : PosixPath} {source : ContextSource φ} (h : note p share path document = .ok source) :
    source.sourceType = .obsidian ∧ source.locator = path.asPosix := by
  simp only [note, bind_eq_ok, ofOption_eq_ok] at h
  obtain ⟨snippet, -, title, -, score, -, hsource⟩ := h
  exact contextSource_fields hsource

theorem readDocument_none (h : locatorPath p vault document = .ok none) : readDocument p vault share document = .ok none := by
  rw [readDocument, h]
  rfl

theorem readDocument_some {path : PosixPath} (h : locatorPath p vault document = .ok (some path)) :
    readDocument p vault share document = (do
      let source ← note p share path document
      return some source) := by
  rw [readDocument, h]
  rfl

theorem locatorPath_of_readDocument {found : Option (ContextSource φ)} (h : readDocument p vault share document = .ok found) :
    ∃ path, locatorPath p vault document = .ok path := by
  obtain ⟨path, hpath, -⟩ := bind_eq_ok.mp h
  exact ⟨path, hpath⟩

theorem exists_readDocument_iff :
    (∃ found, readDocument p vault share document = .ok found) ↔ DocumentReadable p vault share document := by
  constructor
  · intro ⟨found, h⟩
    obtain ⟨path?, hpath⟩ := locatorPath_of_readDocument h
    refine ⟨path?, hpath, fun path hmem => ?_⟩
    rw [Option.mem_def.mp hmem] at hpath
    rw [readDocument_some hpath] at h
    obtain ⟨source, hsource, -⟩ := bind_eq_ok.mp h
    exact exists_note_iff.mp ⟨source, hsource⟩
  · intro ⟨path?, hpath, hreadable⟩
    cases path? with
    | none => exact ⟨none, readDocument_none hpath⟩
    | some path =>
      obtain ⟨source, hsource⟩ := exists_note_iff.mpr (hreadable path rfl)
      exact ⟨some source, by rw [readDocument_some hpath, hsource]; rfl⟩

/-- A document gives no source only if it names no note in the vault. -/
theorem readDocument_eq_none : readDocument p vault share document = .ok none ↔ locatorPath p vault document = .ok none := by
  constructor
  · intro h
    obtain ⟨path?, hpath⟩ := locatorPath_of_readDocument h
    cases path? with
    | none => exact hpath
    | some path =>
      rw [readDocument_some hpath] at h
      obtain ⟨source, -, h⟩ := bind_eq_ok.mp h
      cases h
  · exact readDocument_none

theorem readDocument_eq_some {source : ContextSource φ} (h : readDocument p vault share document = .ok (some source)) :
    ∃ path, locatorPath p vault document = .ok (some path) ∧ note p share path document = .ok source := by
  obtain ⟨path?, hpath⟩ := locatorPath_of_readDocument h
  cases path? with
  | none =>
    rw [readDocument_none hpath] at h
    cases h
  | some path =>
    rw [readDocument_some hpath] at h
    obtain ⟨source', hsource, h⟩ := bind_eq_ok.mp h
    cases h
    exact ⟨path, hpath, hsource⟩

/-- A path that a document names is in the vault. -/
theorem isRelativeTo_of_locatorPath {path : PosixPath} (h : locatorPath p vault document = .ok (some path)) :
    path.isRelativeTo vault = true := by
  unfold locatorPath at h
  split at h
  · split at h
    · simp only [bind_eq_ok, ofOption_eq_ok] at h
      obtain ⟨_, -, resolved, -, h⟩ := h
      split at h
      · cases h
        assumption
      · cases h
    · cases h
  · cases h

end

section
variable (b : ContextBroker) (p : Platform φ) (world : World) (question : Text) (n : Nat)

/-- The vault that `qmd` searches. -/
def VaultSearched (vault : PosixPath) : Prop := b.vault = some vault ∧ n ≠ 0 ∧ world.vaultIsDir question = some true

/-- The path of the vault can be looked at. If `qmd` is asked it can be, and what it prints without a
failure can be read: it meets no limit of the reader, it is no JSON or else a list, a dictionary or a
string, and every document in it can be read. -/
def NotesReadable : Prop :=
  (n ≠ 0 → b.vault ≠ none → world.vaultIsDir question ≠ none) ∧
    ∀ vault, VaultSearched b world question n vault →
      ∃ r, Prints world b.repository (b.qmdArguments question) r ∧ (r.returncode = 0 →
        ∃ documents, documentsOf p r.stdout = .ok documents ∧
          ∀ document ∈ documents, DocumentReadable p vault (n / b.budget.qmdNotes) document)

/-- `qmd` is not asked, fails or names no note in the vault. -/
def NotesSilent : Prop :=
  ∀ vault, VaultSearched b world question n vault →
    ∀ r, Prints world b.repository (b.qmdArguments question) r → r.returncode = 0 →
      ∀ documents, documentsOf p r.stdout = .ok documents → ∀ document ∈ documents, locatorPath p vault document = .ok none

variable {b p world question n}

theorem searchedVault_eq_some {vault : PosixPath} :
    b.searchedVault world question n = .ok (some vault) ↔ VaultSearched b world question n vault := by
  unfold ContextBroker.searchedVault VaultSearched
  cases b.vault with
  | none => exact iff_of_false (fun h => by cases h) fun h => by cases h.1
  | some vault' =>
    by_cases hn : n = 0
    · simp [hn]
    · cases world.vaultIsDir question with
      | none => simp [hn, ofOption, bind, Except.bind]
      | some isDir => cases isDir <;> simp [hn, ofOption, bind, Except.bind, pure, Except.pure]

theorem exists_searchedVault_iff : (∃ found, b.searchedVault world question n = .ok found) ↔
    (n ≠ 0 → b.vault ≠ none → world.vaultIsDir question ≠ none) := by
  unfold ContextBroker.searchedVault
  cases b.vault with
  | none => exact iff_of_true ⟨none, rfl⟩ fun _ h => absurd rfl h
  | some vault =>
    by_cases hn : n = 0
    · simp [hn]
    · cases world.vaultIsDir question with
      | none => simp [hn, ofOption, bind, Except.bind]
      | some isDir => simp [hn, ofOption, bind, Except.bind, pure, Except.pure]

theorem qmd_of_not_asked (h : b.searchedVault world question n = .ok none) : b.qmd p world question n = .ok [] := by
  rw [ContextBroker.qmd, h]
  rfl

section
variable {vault : PosixPath} (h : b.searchedVault world question n = .ok (some vault))
include h

theorem exists_prints_of_qmd {sources : List (ContextSource φ)} (hok : b.qmd p world question n = .ok sources) :
    ∃ r, Prints world b.repository (b.qmdArguments question) r := by
  rw [ContextBroker.qmd, h] at hok
  obtain ⟨_, hfound, hok⟩ := bind_eq_ok.mp hok
  cases hfound
  obtain ⟨r, hr, -⟩ := bind_eq_ok.mp hok
  exact ⟨r, run_eq_ok.mp hr⟩

theorem qmd_of_failure {r : ProcessResult} (hr : Prints world b.repository (b.qmdArguments question) r)
    (hcode : r.returncode ≠ 0) : b.qmd p world question n = .ok [] := by
  rw [ContextBroker.qmd, h]
  show (run world b.repository _ >>= _) = _
  rw [run_eq_ok.mpr hr]
  exact if_pos hcode

theorem qmd_eq_ok {r : ProcessResult} (hr : Prints world b.repository (b.qmdArguments question) r) (hcode : r.returncode = 0)
    {sources : List (ContextSource φ)} :
    b.qmd p world question n = .ok sources ↔ ∃ documents, documentsOf p r.stdout = .ok documents ∧
      ∃ found, documents.mapM (readDocument p vault (n / b.budget.qmdNotes)) = .ok found ∧ found.reduceOption = sources := by
  rw [ContextBroker.qmd, h]
  show (run world b.repository _ >>= _) = _ ↔ _
  rw [run_eq_ok.mpr hr]
  show (if r.returncode ≠ 0 then _ else _) = _ ↔ _
  rw [if_neg (not_not.mpr hcode)]
  simp only [bind_eq_ok, pure, Except.pure, Except.ok.injEq]

end

theorem exists_qmd_iff : (∃ sources, b.qmd p world question n = .ok sources) ↔ NotesReadable b p world question n := by
  constructor
  · rintro ⟨sources, hok⟩
    obtain ⟨found, hfound, -⟩ := bind_eq_ok.mp hok
    refine ⟨exists_searchedVault_iff.mp ⟨found, hfound⟩, fun vault hsearched => ?_⟩
    have hvault := searchedVault_eq_some.mpr hsearched
    obtain ⟨r, hr⟩ := exists_prints_of_qmd hvault hok
    refine ⟨r, hr, fun hcode => ?_⟩
    obtain ⟨documents, hdocuments, found, hfound, -⟩ := (qmd_eq_ok hvault hr hcode).mp hok
    refine ⟨documents, hdocuments, fun document hdocument => ?_⟩
    exact exists_readDocument_iff.mp (exists_mapM_iff.mp ⟨found, hfound⟩ document hdocument)
  · intro hreadable
    obtain ⟨found?, hvault⟩ := exists_searchedVault_iff.mpr hreadable.1
    cases found? with
    | none => exact ⟨[], qmd_of_not_asked hvault⟩
    | some vault =>
      obtain ⟨r, hr, hdocuments⟩ := hreadable.2 vault (searchedVault_eq_some.mp hvault)
      by_cases hcode : r.returncode = 0
      · obtain ⟨documents, hdocuments, hall⟩ := hdocuments hcode
        obtain ⟨found, hfound⟩ := exists_mapM_iff.mpr fun document hdocument => exists_readDocument_iff.mpr (hall document hdocument)
        exact ⟨_, (qmd_eq_ok hvault hr hcode).mpr ⟨documents, hdocuments, found, hfound, rfl⟩⟩
      · exact ⟨[], qmd_of_failure hvault hr hcode⟩

/-- A source of `_qmd` is a note of the vault. -/
def InVault (b : ContextBroker) (s : ContextSource φ) : Prop :=
  ∃ (vault path : PosixPath), b.vault = some vault ∧ path.isRelativeTo vault = true ∧ s.locator = path.asPosix

theorem qmd_sources {sources : List (ContextSource φ)} (hok : b.qmd p world question n = .ok sources) :
    (sources = [] ↔ NotesSilent b p world question n) ∧ ∀ s ∈ sources, InVault b s := by
  obtain ⟨found?, hvault, -⟩ := bind_eq_ok.mp hok
  cases found? with
  | none =>
    rw [qmd_of_not_asked hvault] at hok
    cases hok
    have hsilent : NotesSilent b p world question n := by
      intro vault h
      cases hvault.symm.trans (searchedVault_eq_some.mpr h)
    exact ⟨⟨fun _ => hsilent, fun _ => rfl⟩, nofun⟩
  | some vault =>
    obtain ⟨r, hr⟩ := exists_prints_of_qmd hvault hok
    by_cases hcode : r.returncode = 0
    · obtain ⟨documents, hdocuments, found, hfound, rfl⟩ := (qmd_eq_ok hvault hr hcode).mp hok
      have hmem : ∀ s, s ∈ found.reduceOption ↔
          ∃ document ∈ documents, readDocument p vault (n / b.budget.qmdNotes) document = .ok (some s) := fun s => by
        rw [List.reduceOption_mem_iff, mem_mapM_iff hfound]
      refine ⟨⟨fun hnil => ?_, fun hsilent => ?_⟩, fun s hs => ?_⟩
      · intro vault' hvault' r' hr' _ documents' hdocuments' document hdocument
        cases hvault.symm.trans (searchedVault_eq_some.mpr hvault')
        cases hr.unique hr'
        cases hdocuments.symm.trans hdocuments'
        obtain ⟨source?, hread⟩ := exists_mapM_iff.mp ⟨found, hfound⟩ document hdocument
        cases source? with
        | none => exact readDocument_eq_none.mp hread
        | some source =>
          have hsource := (hmem source).mpr ⟨document, hdocument, hread⟩
          rw [hnil] at hsource
          cases hsource
      · refine List.eq_nil_iff_forall_not_mem.mpr fun s hs => ?_
        obtain ⟨document, hdocument, hread⟩ := (hmem s).mp hs
        rw [readDocument_none (hsilent vault (searchedVault_eq_some.mp hvault) r hr hcode documents hdocuments document hdocument)] at hread
        cases hread
      · obtain ⟨document, -, hread⟩ := (hmem s).mp hs
        obtain ⟨path, hpath, hsource⟩ := readDocument_eq_some hread
        exact ⟨vault, path, (searchedVault_eq_some.mp hvault).1, isRelativeTo_of_locatorPath hpath, (note_fields hsource).2⟩
    · rw [qmd_of_failure hvault hr hcode] at hok
      cases hok
      have hsilent : NotesSilent b p world question n := by
        intro vault' _ r' hr' hcode'
        exact absurd (hr.unique hr' ▸ hcode') hcode
      exact ⟨⟨fun _ => hsilent, fun _ => rfl⟩, nofun⟩

end

/-! ### The lines of the repository -/

section
variable (b : ContextBroker) (world : World) (question : Text) (n : Nat)

/-- If `rg` is asked it can be, and if it prints lines the path of the repository has an encoding. -/
def LinesReadable : Prop :=
  n ≠ 0 → terms question ≠ [] → ∃ r, Prints world b.repository (b.rgArguments question) r ∧
    (r.returncode = 0 ∨ r.returncode = 1 → matchedLines r.stdout n ≠ [] → Text.encodable b.repository.asPosix = true)

variable {b world question n} {p : Platform φ}

/-- A repository that was found before has a path with an encoding. -/
theorem exists_exactSource_iff {exclude : List Text} (hexclude : ∀ locator ∈ exclude, Text.encodable locator = true) :
    (∃ exact, b.exactSource p world question n exclude = .ok exact) ↔ LinesReadable b world question n := by
  unfold ContextBroker.exactSource LinesReadable
  split
  · rename_i h
    exact ⟨fun _ hn hterms => absurd h (not_or.mpr ⟨hn, hterms⟩), fun _ => ⟨[], rfl⟩⟩
  · rename_i h
    obtain ⟨hn, hterms⟩ := not_or.mp h
    simp only [bind_eq_ok, run_eq_ok]
    constructor
    · intro hexact _ _
      obtain ⟨exact, r, hr, hok⟩ := hexact
      refine ⟨r, hr, fun hcode hlines => ?_⟩
      rw [if_neg (by omega)] at hok
      split at hok
      · rename_i hskip
        exact hexclude _ (hskip.resolve_left hlines)
      · obtain ⟨source, hsource, -⟩ := bind_eq_ok.mp hok
        exact (exists_contextSource_iff.mp ⟨source, hsource⟩).2.1
    · intro hreadable
      obtain ⟨r, hr, hlocator⟩ := hreadable hn hterms
      by_cases hcode : r.returncode = 0 ∨ r.returncode = 1
      · by_cases hskip : matchedLines r.stdout n = [] ∨ b.repository.asPosix ∈ exclude
        · exact ⟨[], r, hr, by rw [if_neg (by omega), if_pos hskip]⟩
        · have htitle : Text.encodable (Text.ofString "Exact repository matches") = true := by decide
          obtain ⟨source, hsource⟩ := exists_contextSource_iff.mpr
            ⟨htitle, hlocator hcode (not_or.mp hskip).1, encodable_matchedLines (Outcome.encodable_stdout hr.2) n, p.constants.2⟩
          exact ⟨[source], r, hr, by rw [if_neg (by omega), if_neg hskip, hsource]; rfl⟩
      · exact ⟨[], r, hr, if_pos (by omega)⟩

theorem exactSource_sources {exclude : List Text} {exact : List (ContextSource φ)}
    (h : b.exactSource p world question n exclude = .ok exact) : ∀ s ∈ exact, s.sourceType = .source := by
  unfold ContextBroker.exactSource at h
  split at h
  · cases h
    exact nofun
  · obtain ⟨r, -, h⟩ := bind_eq_ok.mp h
    split at h
    · cases h
      exact nofun
    · dsimp only at h
      split at h
      · cases h
        exact nofun
      · obtain ⟨source, hsource, h⟩ := bind_eq_ok.mp h
        cases h
        intro s hs
        rw [List.mem_singleton.mp hs]
        exact (contextSource_fields hsource).1

end

/-! ### A question -/

/-- A source that says it is a note is one of the vault. -/
def Scoped (b : ContextBroker) (s : ContextSource φ) : Prop := s.sourceType = .obsidian → InVault b s

/-- What is left and what was omitted are all that was retrieved, and notes are of the vault. -/
structure Findings.Valid (b : ContextBroker) (found : Findings φ) : Prop where
  conserved : found.sources.length + found.omitted = found.retrieved.length
  ofVault : ∀ s ∈ found.sources, Scoped b s

section
variable {b : ContextBroker} {p : Platform φ} {world : World} {limit : Nat} {question : Text}

theorem ask_eq_ok {found : Findings φ} : b.ask p world limit question = .ok found ↔
    ∃ graphSources, b.graphify p world question (b.graphLimit limit) = .ok graphSources ∧
      ∃ qmdSources, b.qmd p world question (b.qmdLimit limit) = .ok qmdSources ∧
        found = ⟨deduplicate p (graphSources ++ qmdSources.take b.budget.qmdNotes),
          (qmdSources.length - b.budget.qmdNotes) + ((graphSources ++ qmdSources.take b.budget.qmdNotes).length -
            (deduplicate p (graphSources ++ qmdSources.take b.budget.qmdNotes)).length), graphSources ++ qmdSources⟩ := by
  simp only [ContextBroker.ask, bind_eq_ok, pure, Except.pure, Except.ok.injEq, eq_comm (b := found)]

theorem exists_ask_iff : (∃ found, b.ask p world limit question = .ok found) ↔
    GraphReadable b world question (b.graphLimit limit) ∧ NotesReadable b p world question (b.qmdLimit limit) := by
  rw [← exists_graphify_iff (p := p), ← exists_qmd_iff]
  constructor
  · intro ⟨found, h⟩
    obtain ⟨graphSources, hgraph, qmdSources, hqmd, -⟩ := ask_eq_ok.mp h
    exact ⟨⟨graphSources, hgraph⟩, qmdSources, hqmd⟩
  · intro ⟨⟨graphSources, hgraph⟩, qmdSources, hqmd⟩
    exact ⟨_, ask_eq_ok.mpr ⟨graphSources, hgraph, qmdSources, hqmd, rfl⟩⟩

/-- Nothing is found only if both programs are silent, for a note is left of those that came. -/
theorem sources_eq_nil_iff {found : Findings φ} (h : b.ask p world limit question = .ok found) : found.sources = [] ↔
    GraphSilent b world question (b.graphLimit limit) ∧ NotesSilent b p world question (b.qmdLimit limit) := by
  obtain ⟨graphSources, hgraph, qmdSources, hqmd, rfl⟩ := ask_eq_ok.mp h
  rw [← (graphify_sources hgraph).1, ← (qmd_sources hqmd).1, deduplicate_eq_nil, List.append_eq_nil_iff, List.take_eq_nil_iff]
  have := b.budget.notes.1
  constructor
  · exact fun h => ⟨h.1, h.2.resolve_left (by omega)⟩
  · exact fun h => ⟨h.1, .inr h.2⟩

theorem valid_of_ask {found : Findings φ} (h : b.ask p world limit question = .ok found) : found.Valid b := by
  obtain ⟨graphSources, hgraph, qmdSources, hqmd, rfl⟩ := ask_eq_ok.mp h
  constructor
  · have := length_deduplicate p (graphSources ++ qmdSources.take b.budget.qmdNotes)
    simp only [List.length_append, List.length_take] at this ⊢
    omega
  · intro s hs htype
    obtain hs | hs := List.mem_append.mp (mem_deduplicate hs)
    · rw [(graphify_sources hgraph).2 s hs] at htype
      cases htype
    · exact (qmd_sources hqmd).2 s (List.mem_of_mem_take hs)

end

section
variable {b : ContextBroker} {p : Platform φ} {world : World} {limit : Nat} {question : Text}

theorem exists_find_iff : (∃ found, b.find p world limit question = .ok found) ↔
    (GraphReadable b world question (b.graphLimit limit) ∧ NotesReadable b p world question (b.qmdLimit limit)) ∧
      (GraphSilent b world question (b.graphLimit limit) → NotesSilent b p world question (b.qmdLimit limit) →
        retries question = true → GraphReadable b world (simplified question) (b.graphLimit limit) ∧
          NotesReadable b p world (simplified question) (b.qmdLimit limit)) := by
  rw [← exists_ask_iff, ← exists_ask_iff]
  constructor
  · intro ⟨found, h⟩
    obtain ⟨first, hfirst, h⟩ := bind_eq_ok.mp h
    refine ⟨⟨first, hfirst⟩, fun hgraph hnotes hretries => ?_⟩
    rw [if_pos ⟨(sources_eq_nil_iff hfirst).mpr ⟨hgraph, hnotes⟩, hretries⟩] at h
    obtain ⟨retry, hretry, -⟩ := bind_eq_ok.mp h
    exact ⟨retry, hretry⟩
  · intro ⟨⟨first, hfirst⟩, hretry⟩
    rw [ContextBroker.find, hfirst]
    show ∃ found, (if first.sources = [] ∧ retries question = true then _ else _) = _
    split
    · rename_i h
      obtain ⟨hgraph, hnotes⟩ := (sources_eq_nil_iff hfirst).mp h.1
      obtain ⟨retry, hretry⟩ := hretry hgraph hnotes h.2
      rw [hretry]
      exact ⟨_, rfl⟩
    · exact ⟨_, rfl⟩

/-- Of a question without findings everything was omitted, so that nothing is lost by the retry. -/
theorem valid_of_find {found : Findings φ × Option String} (h : b.find p world limit question = .ok found) : found.1.Valid b := by
  obtain ⟨first, hfirst, h⟩ := bind_eq_ok.mp h
  have hvalid := valid_of_ask hfirst
  split at h
  · rename_i hnil
    obtain ⟨retry, hretry, h⟩ := bind_eq_ok.mp h
    cases h
    have hvalid' := valid_of_ask hretry
    refine ⟨?_, hvalid'.ofVault⟩
    have := hvalid.conserved
    rw [hnil.1, List.length_nil] at this
    have := hvalid'.conserved
    show retry.sources.length + (first.omitted + retry.omitted) = (first.retrieved ++ retry.retrieved).length
    rw [List.length_append]
    omega
  · cases h
    exact hvalid

end

/-! ### The answer -/

/-- What a bundle promises, of what was asked and what was retrieved for it. -/
structure ContextBundle.Sound (b : ContextBroker) (tokenBudget : Option Int) (retrieved : List (ContextSource φ))
    (bundle : ContextBundle φ) : Prop where
  estimated : bundle.estimatedTokens = (bundle.sources.map fun s => estimateTokens s.excerpt).sum
  within : bundle.estimatedTokens ≤ bundle.tokenBudget
  ceiling : bundle.tokenBudget ≤ b.budget.hardCeiling
  requested : ∀ tokens, tokenBudget = some tokens → bundle.tokenBudget ≤ tokens
  distinct : bundle.sources.Pairwise fun s s' => (s.locator, s.excerpt) ≠ (s'.locator, s'.excerpt)
  ofVault : ∀ s ∈ bundle.sources, s.sourceType = .obsidian →
    ∃ (vault path : PosixPath), b.vault = some vault ∧ path.isRelativeTo vault = true ∧ s.locator = path.asPosix
  conserved : bundle.sources.length + bundle.omittedResults = retrieved.length

theorem limit_le (b : ContextBroker) {tokenBudget : Option Int} (h : ∀ tokens, tokenBudget = some tokens → 0 < tokens) :
    b.limit tokenBudget ≤ b.budget.hardCeiling ∧ ∀ tokens, tokenBudget = some tokens → (b.limit tokenBudget : Int) ≤ tokens := by
  refine ⟨Nat.min_le_right _ _, ?_⟩
  intro tokens htokens
  have := h tokens htokens
  subst htokens
  have hle : b.limit (some tokens) ≤ tokens.toNat := Nat.min_le_left _ _
  omega

/-- What is in a bundle stands in this order among the sources without duplicates. -/
theorem sources_sublist {p : Platform φ} {question : Text} {limit : Nat} {found : Findings φ} {fallbackReason : Option String}
    {exact : List (ContextSource φ)} :
    List.Sublist (bundle p question limit found fallbackReason exact).1.sources (deduplicate p (found.sources ++ exact)) := by
  have h : List.Sublist (bundle p question limit found fallbackReason exact).1.sources.reverse
      (deduplicate p (found.sources ++ exact)).reverse := by
    show List.Sublist (List.reverse (List.reverse _)) _
    rw [List.reverse_reverse]
    exact (Shortlist.shed_suffix _ _).sublist
  exact List.reverse_sublist.mp h

theorem bundle_sound {b : ContextBroker} {p : Platform φ} {question : Text} {tokenBudget : Option Int} {found : Findings φ}
    {fallbackReason : Option String} {exact : List (ContextSource φ)} (hfound : found.Valid b)
    (hexact : ∀ s ∈ exact, s.sourceType = .source) (hbudget : ∀ tokens, tokenBudget = some tokens → 0 < tokens) :
    (bundle p question (b.limit tokenBudget) found fallbackReason exact).1.Sound b tokenBudget
      (bundle p question (b.limit tokenBudget) found fallbackReason exact).2 where
  estimated := rfl
  within := by
    show (List.map _ (List.reverse _)).sum ≤ _
    rw [List.map_reverse, List.sum_reverse]
    exact Shortlist.shed_sum_le _ _
  ceiling := (limit_le b hbudget).1
  requested := (limit_le b hbudget).2
  distinct := by
    have hnodup : (deduplicate p (found.sources ++ exact)).Pairwise fun s s' => s.key ≠ s'.key :=
      List.pairwise_map.mp (Shortlist.nodup_firsts [] _)
    exact hnodup.sublist sources_sublist
  ofVault := by
    intro s hs htype
    obtain hs | hs := List.mem_append.mp (mem_deduplicate (sources_sublist.mem hs))
    · exact hfound.ofVault s hs htype
    · rw [hexact s hs] at htype
      cases htype
  conserved := by
    have hlength := length_deduplicate p (found.sources ++ exact)
    have hconserved := hfound.conserved
    show (List.reverse _).length + _ = (found.retrieved ++ exact).length
    rw [List.length_reverse]
    refine (Shortlist.shed_count _ _).trans ?_
    rw [List.length_reverse]
    simp only [List.length_append] at hlength ⊢
    omega

/-! ### Search -/

/-- The checks of a request pass. -/
structure RequestValid (question : Text) (tokenBudget : Option Int) : Prop where
  length : question.length ≤ maximumQuestionBytes
  size : ∃ size ≤ maximumQuestionBytes, Text.utf8Length? question = some size
  notBlank : Media.strip question ≠ []
  positive : ∀ tokens, tokenBudget = some tokens → 0 < tokens

theorem checkRequest_eq_ok {question : Text} {tokenBudget : Option Int} :
    checkRequest question tokenBudget = .ok () ↔ RequestValid question tokenBudget := by
  simp only [checkRequest, bind_eq_ok, require_eq_ok, ofOption_eq_ok, decide_eq_true_eq, Option.all_eq_true]
  constructor
  · intro hchecked
    obtain ⟨_, hlength, size, hsize, _, hle, _, hblank, hpositive⟩ := hchecked
    exact ⟨hlength, ⟨size, hle, hsize⟩, hblank, hpositive⟩
  · intro h
    obtain ⟨size, hle, hsize⟩ := h.size
    exact ⟨(), h.length, size, hsize, (), hle, (), h.notBlank, h.positive⟩

section
variable (b : ContextBroker) (p : Platform φ) (world : World) (question : Text) (tokenBudget : Option Int)

/-- The request is valid and everything that the programs print for it can be read. The retry is
made if neither program gave anything for the question itself. -/
structure Answerable : Prop where
  request : RequestValid question tokenBudget
  graph : GraphReadable b world question (b.graphLimit (b.limit tokenBudget))
  notes : NotesReadable b p world question (b.qmdLimit (b.limit tokenBudget))
  retry : GraphSilent b world question (b.graphLimit (b.limit tokenBudget)) →
    NotesSilent b p world question (b.qmdLimit (b.limit tokenBudget)) → retries question = true →
      GraphReadable b world (simplified question) (b.graphLimit (b.limit tokenBudget)) ∧
        NotesReadable b p world (simplified question) (b.qmdLimit (b.limit tokenBudget))
  lines : LinesReadable b world question (b.sourceLimit (b.limit tokenBudget))

variable {b p world question tokenBudget}

theorem encodable_locators (sources : List (ContextSource φ)) :
    ∀ locator ∈ sources.map (·.locator), Text.encodable locator = true := by
  intro locator hlocator
  obtain ⟨s, -, rfl⟩ := List.mem_map.mp hlocator
  have h := s.encodable
  simp only [Bool.and_eq_true] at h
  exact h.1.2

theorem sound_of_search {answer : ContextBundle φ × List (ContextSource φ)}
    (h : b.search p world question tokenBudget = .ok answer) : answer.1.Sound b tokenBudget answer.2 := by
  obtain ⟨_, hrequest, h⟩ := bind_eq_ok.mp h
  obtain ⟨⟨found, fallbackReason⟩, hfind, h⟩ := bind_eq_ok.mp h
  obtain ⟨exact, hexact, h⟩ := bind_eq_ok.mp h
  cases h
  exact bundle_sound (valid_of_find hfind) (exactSource_sources hexact) (checkRequest_eq_ok.mp hrequest).positive

theorem exists_search_iff : (∃ answer, b.search p world question tokenBudget = .ok answer) ↔
    Answerable b p world question tokenBudget := by
  constructor
  · intro ⟨answer, h⟩
    obtain ⟨_, hrequest, h⟩ := bind_eq_ok.mp h
    obtain ⟨⟨found, fallbackReason⟩, hfind, h⟩ := bind_eq_ok.mp h
    obtain ⟨exact, hexact, -⟩ := bind_eq_ok.mp h
    obtain ⟨⟨hgraph, hnotes⟩, hretry⟩ := exists_find_iff.mp ⟨_, hfind⟩
    exact ⟨checkRequest_eq_ok.mp hrequest, hgraph, hnotes, hretry,
      (exists_exactSource_iff (encodable_locators found.sources)).mp ⟨exact, hexact⟩⟩
  · intro h
    obtain ⟨⟨found, fallbackReason⟩, hfind⟩ := exists_find_iff.mpr ⟨⟨h.graph, h.notes⟩, h.retry⟩
    obtain ⟨exact, hexact⟩ := (exists_exactSource_iff (p := p) (encodable_locators found.sources)).mpr h.lines
    refine ⟨bundle p question (b.limit tokenBudget) found fallbackReason exact, ?_⟩
    rw [ContextBroker.search, checkRequest_eq_ok.mpr h.request]
    show (b.find p world (b.limit tokenBudget) question >>= _) = _
    rw [hfind]
    show (b.exactSource p world question _ _ >>= _) = _
    rw [hexact]
    rfl

end

/-- A platform, for an output in which there are no numbers and paths. -/
def barePlatform : Platform Unit where
  floats := Floats.none
  ofInt _ := none
  ofText _ := none
  isNonnegative _ := true
  constants := ⟨rfl, rfl⟩
  confidence _ := ()
  container _ := none
  sorted := id
  sorted_perm := List.Perm.refl
  isLimited _ := false
  expanduser := some
  resolve := some

def exampleBroker : ContextBroker where
  repository := PosixPath.parse (Text.ofString "/repository")
  vault := some (PosixPath.parse (Text.ofString "/vault"))
  qmdIndex := Text.ofString "obsidian-mind"
  budget := {}

/-- Only `qmd` is installed, and prints `null`. -/
def nullWorld : World where
  graphExists _ := some false
  vaultIsDir _ := some true
  outcome arguments :=
    if arguments.head? = some (Text.ofString "qmd") then .finished 0 [0x6e, 0x75, 0x6c, 0x6c] [] else .missing

end Fetech.Broker
