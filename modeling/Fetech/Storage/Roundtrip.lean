import Fetech.Storage.Verification

/-! The store on its own: what was put comes back.

While nothing is done to the files from outside and the system refuses nothing
(`Undisturbed`), digest paths hold what their names say and never change. `Calm` says
where each `put` stands then; a verification can only fail on another body with the
same digest, and each step brings a call nearer to its end. -/
namespace Fetech.Storage
open Lib

/-- Digest paths hold what they name; the other names are temporary files. -/
structure Intact (H : Hash) (f : Files) : Prop where
  digests : ∀ digest i, f.names (.digest digest) = some i →
    (f.nodes i).kind = .regular ∧ H.hexdigest (f.nodes i).content = digest
  others : ∀ directory suffix i, f.names (.temporary directory suffix) = some i →
    .temporary directory suffix ∈ f.handedOut

/-- Nothing is done from outside, and the system refuses nothing. -/
structure Undisturbed (a : Act) : Prop where
  inside : a.outside = false
  granted : ∀ id answer, a = .step id answer → answer.fails = false

/-! ### Where a `put` stands -/

section Calm
variable (H : Hash) (f : Files) (body : Bytes)

def Verification.Calm : Verification → Prop
  | .lstat => True
  | .opening => ∃ i, f.names (.digest (H.hexdigest body)) = some i
  | .fstat fd => f.names (.digest (H.hexdigest body)) = some fd
  | .reading fd seen chunk => f.names (.digest (H.hexdigest body)) = some fd ∧
    (f.nodes fd).content.length = body.length ∧ seen <+: body ∧ seen ++ chunk <+: (f.nodes fd).content

/-- The digest path holds another body of the same digest. -/
def Clash : Prop := ∃ other, f.Holds (.digest (H.hexdigest body)) other ∧ other ≠ body

def OutcomeCalm : Except StorageError Stored → Prop
  | .ok r => r = stored H body ∧ f.Holds (.digest (H.hexdigest body)) body
  | .error e => e = unexpectedContent ∧ Clash H f body

/-- The temporary file is in place, with this content. -/
structure InPlace (t : Temporary) (content : Bytes) : Prop where
  name : f.names t.name = some t.fd
  content : (f.nodes t.fd).content = content

def PutPc.Calm : PutPc → Prop
  | .entering | .staging => True
  | .checking v => v.Calm H f body
  | .writing t written => InPlace f t (body.take written) ∧ written ≤ body.length
  | .linking t _ => InPlace f t body
  | .confirming t _ v => InPlace f t body ∧ (∃ i, f.names (.digest (H.hexdigest body)) = some i) ∧ v.Calm H f body
  | .securing (some t) => InPlace f t body ∧ f.Holds (.digest (H.hexdigest body)) body
  | .securing none => f.Holds (.digest (H.hexdigest body)) body
  | .cleaning t outcome => InPlace f t body ∧ OutcomeCalm H f body outcome
  | .finished _ outcome => OutcomeCalm H f body outcome

end Calm

/-- How many steps a verification can still take. -/
def Verification.rank (body : Bytes) : Verification → Nat
  | .lstat => 2 * body.length + 5
  | .opening => 2 * body.length + 4
  | .fstat _ => 2 * body.length + 3
  | .reading _ seen chunk =>
    2 * (body.length - (seen.length + chunk.length)) + (if chunk = [] then 0 else 1) + 1

def PutPc.rank (body : Bytes) : PutPc → Nat
  | .entering => 5 * body.length + 16
  | .checking v => 3 * body.length + 10 + v.rank body
  | .staging => 3 * body.length + 10
  | .writing _ written => body.length - written + 2 * body.length + 9
  | .linking _ _ => 2 * body.length + 8
  | .confirming _ _ v => 2 + v.rank body
  | .securing _ => 2
  | .cleaning _ _ => 1
  | .finished _ _ => 0

variable {H : Hash} {f f' : Files} {body : Bytes}

/-! ### The verification -/

theorem take_of_prefix_append {seen chunk content : Bytes} (h : seen ++ chunk <+: content) :
    chunk = (content.drop seen.length).take chunk.length := by
  obtain ⟨rest, rfl⟩ := h
  rw [List.append_assoc, List.drop_left, List.take_left]

/-- What a read shows goes on with the content. -/
theorem prefix_append_read {shown content : Bytes} (h : shown <+: content) (n : Nat) :
    shown ++ (content.drop shown.length).take n <+: content := by
  obtain ⟨rest, rfl⟩ := h
  rw [List.drop_left]
  exact (List.prefix_append_right_inj shown).mpr (List.take_prefix _ _)

/-- Nothing is read at the end only. -/
theorem end_of_empty_read {content : Bytes} {position want amount : Nat} (hwant : 0 < want)
    (h : rawRead content position want amount = []) : content.length ≤ position := by
  have hlength := congrArg List.length h
  simp only [rawRead, List.length_take, List.length_drop, List.length_nil] at hlength
  omega

theorem compareChunk_calm (hnames : f.names (.digest (H.hexdigest body)) = some fd)
    (hkind : (f.nodes fd).kind = .regular) (hlength : (f.nodes fd).content.length = body.length) {seen chunk : Bytes}
    (hseen : seen <+: body) (hshown : seen ++ chunk <+: (f.nodes fd).content)
    (hend : chunk = [] → (f.nodes fd).content.length ≤ seen.length) :
    match compareChunk H body fd seen chunk with
    | .ongoing v => v.Calm H f body ∧ chunk ≠ [] ∧ v = .reading fd (seen ++ chunk) []
    | .found => f.Holds (.digest (H.hexdigest body)) body
    | .missing => False
    | .failed e => e = unexpectedContent ∧ Clash H f body := by
  unfold compareChunk
  by_cases hchunk : chunk = []
  · subst hchunk
    rw [List.append_nil] at hshown
    have hall : seen = body := hseen.eq_of_length (Nat.le_antisymm hseen.length_le (hlength ▸ hend rfl))
    have hcontent : seen = (f.nodes fd).content := hshown.eq_of_length (by rw [hall, hlength])
    subst hall
    rw [if_pos rfl, if_neg (by simp)]
    exact ⟨fd, hnames, hkind, hcontent.symm⟩
  · rw [if_neg hchunk]
    by_cases hsame : chunk = (body.drop seen.length).take chunk.length
    · rw [if_neg (not_not.mpr hsame)]
      refine ⟨⟨hnames, hlength, ?_, by rwa [List.append_nil]⟩, hchunk, rfl⟩
      rw [hsame]
      exact prefix_append_read hseen _
    · rw [if_pos hsame]
      refine ⟨rfl, _, ⟨fd, hnames, hkind, rfl⟩, fun heq => hsame ?_⟩
      rw [heq] at hshown
      exact take_of_prefix_append hshown

/-- **One step of a verification**, where digest paths hold what they name. -/
theorem verifyExisting_calm (hf : Intact H f) {a : Answer} (ha : a.fails = false) {v : Verification}
    (hv : v.Calm H f body) :
    match verifyExisting H f body a v with
    | .ongoing v' => v'.Calm H f body ∧ v'.rank body < v.rank body
    | .found => f.Holds (.digest (H.hexdigest body)) body
    | .missing => f.names (.digest (H.hexdigest body)) = none
    | .failed e => e = unexpectedContent ∧ Clash H f body := by
  cases v with
  | lstat =>
    cases hname : f.names (.digest (H.hexdigest body)) with
    | none => simp [verifyExisting, ha, hname]
    | some i =>
      simp only [verifyExisting, ha, hname, (hf.digests _ i hname).1, if_true, Bool.false_eq_true, if_false]
      exact ⟨⟨i, hname⟩, by simp [Verification.rank]⟩
  | opening =>
    obtain ⟨i, hname⟩ := hv
    simp only [verifyExisting, ha, hname, (hf.digests _ i hname).1, Bool.false_eq_true, if_false, reduceCtorEq]
    exact ⟨hname, by simp [Verification.rank]⟩
  | fstat fd =>
    have hname : f.names (.digest (H.hexdigest body)) = some fd := hv
    have hkind := (hf.digests _ fd hname).1
    by_cases hlength : (f.nodes fd).content.length = body.length
    · simp only [verifyExisting, ha, hkind, hlength, ne_eq, not_true_eq_false, or_self, Bool.false_eq_true, if_false]
      exact ⟨⟨hname, hlength, List.nil_prefix, List.nil_prefix⟩, by simp [Verification.rank]⟩
    · simp only [verifyExisting, ha, hkind, hlength, ne_eq, not_true_eq_false, not_false_eq_true, false_or, if_true,
        Bool.false_eq_true, if_false]
      exact ⟨trivial, _, ⟨fd, hname, hkind, rfl⟩, fun heq => hlength (by rw [heq])⟩
  | reading fd seen chunk =>
    obtain ⟨hname, hlength, hseen, hshown⟩ := hv
    have hkind := (hf.digests _ fd hname).1
    simp only [verifyExisting, ha, Bool.false_eq_true, if_false]
    have hdata : seen ++ (chunk ++ rawRead (f.nodes fd).content (seen.length + chunk.length) (chunkSize - chunk.length)
        a.amount) <+: (f.nodes fd).content := by
      rw [← List.append_assoc, ← List.length_append]
      exact prefix_append_read hshown _
    have hempty : chunk = [] → rawRead (f.nodes fd).content (seen.length + chunk.length) (chunkSize - chunk.length)
        a.amount = [] → (f.nodes fd).content.length ≤ seen.length := by
      rintro rfl hread
      simpa using end_of_empty_read (by simp [chunkSize]) hread
    generalize rawRead (f.nodes fd).content (seen.length + chunk.length) (chunkSize - chunk.length) a.amount = data
      at hdata hempty ⊢
    have hsum : seen.length + (chunk.length + data.length) ≤ body.length := by
      simpa [hlength] using hdata.length_le
    by_cases hmore : data ≠ [] ∧ (chunk ++ data).length < chunkSize
    · rw [if_pos hmore]
      refine ⟨⟨hname, hlength, hseen, hdata⟩, ?_⟩
      have hpos := List.length_pos_of_ne_nil hmore.1
      simp only [Verification.rank, List.length_append]
      split <;> split <;> omega
    · rw [if_neg hmore]
      have hcompared := compareChunk_calm hname hkind hlength hseen hdata fun h =>
        hempty (List.append_eq_nil_iff.mp h).1 (List.append_eq_nil_iff.mp h).2
      split at hcompared
      · obtain ⟨hcalm, hne, rfl⟩ := hcompared
        refine ⟨hcalm, ?_⟩
        simp only [Verification.rank, List.length_append, List.length_nil, if_true]
        by_cases hnil : data = []
        · have hchunk : chunk ≠ [] := fun hchunk => hne (by simp [hchunk, hnil])
          simp only [hnil, List.length_nil, hchunk, if_false]
          omega
        · have hpos := List.length_pos_of_ne_nil hnil
          omega
      · exact hcompared
      · exact absurd hcompared not_false
      · exact hcompared

/-! ### The `put` itself -/

/-- A write at the end of what is written brings the next bytes. -/
theorem pwrite_take {body : Bytes} {written : Nat} (h : written ≤ body.length) (amount : Nat) :
    pwrite (body.take written) written ((body.drop written).take amount) =
      body.take (written + ((body.drop written).take amount).length) := by
  have hlength : (body.take written).length = written := List.length_take_of_le h
  have hzeros : written - (body.take written).length = 0 := by omega
  have hnothing : (body.take written).drop (written + ((body.drop written).take amount).length) = [] :=
    List.drop_eq_nil_of_le (by omega)
  have hmore : (body.drop written).take ((body.drop written).take amount).length = (body.drop written).take amount := by
    rw [List.length_take, List.take_eq_take_iff]
    omega
  rw [pwrite, hzeros, hnothing, List.take_take, Nat.min_self, List.take_add, hmore]
  simp

/-- The file is written to its end, or grows by what was taken. -/
theorem InPlace.rewrite {t : Temporary} {content content' : Bytes} (h : InPlace f t content) :
    InPlace (f.rewrite t.fd content') t content' where
  name := h.name
  content := by simp

theorem InPlace.link {t : Temporary} {content : Bytes} (h : InPlace f t content) {p : Path} (hp : t.name ≠ p) (i : Nat) :
    InPlace (f.link p i) t content where
  name := by rw [Files.names_link, if_neg hp]; exact h.name
  content := h.content

/-- **One step of `put`**, where digest paths hold what they name: it keeps its place, and
comes nearer to its end. -/
theorem putStep_calm (hf : Intact H f) {a : Answer} (ha : a.fails = false) {pc pc' : PutPc}
    (hpc : pc.Calm H f body) (htemp : ∀ t, pc.temporary? = some t →
      (∃ directory suffix, t.name = .temporary directory suffix) ∧ (f.nodes t.fd).kind = .regular)
    (h : putStep H f body a pc = some (pc', f')) : pc'.Calm H f' body ∧ pc'.rank body < pc.rank body := by
  cases pc with
  | entering =>
    simp only [putStep, ha, Bool.false_eq_true, if_false, Option.some.injEq, Prod.mk.injEq] at h
    obtain ⟨rfl, rfl⟩ := h
    exact ⟨trivial, by simp only [PutPc.rank, Verification.rank]; omega⟩
  | checking v =>
    have hverdict := verifyExisting_calm hf ha hpc
    cases hv : verifyExisting H f body a v with
    | ongoing v' =>
      simp only [hv] at hverdict
      simp only [putStep, hv, Option.some.injEq, Prod.mk.injEq] at h
      obtain ⟨rfl, rfl⟩ := h
      exact ⟨hverdict.1, by simp only [PutPc.rank]; omega⟩
    | found =>
      simp only [hv] at hverdict
      simp only [putStep, hv, Option.some.injEq, Prod.mk.injEq] at h
      obtain ⟨rfl, rfl⟩ := h
      exact ⟨hverdict, by simp only [PutPc.rank]; omega⟩
    | missing =>
      simp only [putStep, hv, Option.some.injEq, Prod.mk.injEq] at h
      obtain ⟨rfl, rfl⟩ := h
      refine ⟨trivial, ?_⟩
      have hpos : 0 < v.rank body := by cases v <;> simp [Verification.rank]
      simp only [PutPc.rank]
      omega
    | failed e =>
      simp only [hv] at hverdict
      simp only [putStep, hv, Option.some.injEq, Prod.mk.injEq] at h
      obtain ⟨rfl, rfl⟩ := h
      exact ⟨hverdict, by simp only [PutPc.rank]; omega⟩
  | staging =>
    simp only [putStep, ha, Bool.false_eq_true, if_false] at h
    split at h
    · simp only [Option.some.injEq, Prod.mk.injEq] at h
      obtain ⟨rfl, rfl⟩ := h
      exact ⟨⟨⟨by simp, by simp⟩, Nat.zero_le _⟩, by simp only [PutPc.rank]; omega⟩
    · cases h
  | writing t written =>
    obtain ⟨hplace, hle⟩ := hpc
    simp only [putStep, ha, Bool.false_eq_true, if_false] at h
    split at h
    · rename_i hmore
      simp only [Option.some.injEq, Prod.mk.injEq] at h
      obtain ⟨rfl, rfl⟩ := h
      have hlength : ((body.drop written).take (max 1 a.amount)).length =
          min (max 1 a.amount) (body.length - written) := by
        rw [List.length_take, List.length_drop]
      refine ⟨⟨?_, by omega⟩, by simp only [PutPc.rank]; omega⟩
      rw [hplace.content, pwrite_take hle]
      exact hplace.rewrite
    · rename_i hall
      simp only [Option.some.injEq, Prod.mk.injEq] at h
      obtain ⟨rfl, rfl⟩ := h
      rw [List.take_of_length_le (Nat.not_lt.mp hall)] at hplace
      exact ⟨hplace, by simp only [PutPc.rank]; omega⟩
  | linking t attempt =>
    have hplace : InPlace f t body := hpc
    obtain ⟨⟨directory, suffix, hname⟩, hkind⟩ := htemp t rfl
    simp only [putStep, ha, linkTarget, hplace.name, hkind, Bool.false_eq_true, if_false, reduceCtorEq] at h
    split at h
    · rename_i i hi
      simp only [Option.some.injEq, Prod.mk.injEq] at h
      obtain ⟨rfl, rfl⟩ := h
      exact ⟨⟨hplace, ⟨i, hi⟩, trivial⟩, by simp only [PutPc.rank, Verification.rank]; omega⟩
    · simp only [Option.some.injEq, Prod.mk.injEq] at h
      obtain ⟨rfl, rfl⟩ := h
      exact ⟨⟨hplace.link (by simp [hname]) _, ⟨t.fd, by simp⟩, trivial⟩,
        by simp only [PutPc.rank, Verification.rank]; omega⟩
  | confirming t occupied v =>
    obtain ⟨hplace, ⟨i, hi⟩, hv⟩ := hpc
    have hverdict := verifyExisting_calm hf ha hv
    cases hv : verifyExisting H f body a v with
    | ongoing v' =>
      simp only [hv] at hverdict
      simp only [putStep, hv, Option.some.injEq, Prod.mk.injEq] at h
      obtain ⟨rfl, rfl⟩ := h
      exact ⟨⟨hplace, ⟨i, hi⟩, hverdict.1⟩, by simp only [PutPc.rank]; omega⟩
    | found =>
      simp only [hv] at hverdict
      simp only [putStep, hv, Option.some.injEq, Prod.mk.injEq] at h
      obtain ⟨rfl, rfl⟩ := h
      refine ⟨⟨hplace, hverdict⟩, ?_⟩
      have hpos : 0 < v.rank body := by cases v <;> simp [Verification.rank]
      simp only [PutPc.rank]
      omega
    | missing =>
      simp only [hv, hi] at hverdict
      cases hverdict
    | failed e =>
      simp only [hv] at hverdict
      simp only [putStep, hv, Option.some.injEq, Prod.mk.injEq] at h
      obtain ⟨rfl, rfl⟩ := h
      exact ⟨⟨hplace, hverdict⟩, by simp only [PutPc.rank]; omega⟩
  | securing t =>
    cases t with
    | none =>
      simp only [putStep, ha, Bool.false_eq_true, if_false, Option.some.injEq, Prod.mk.injEq] at h
      obtain ⟨rfl, rfl⟩ := h
      exact ⟨⟨rfl, hpc⟩, by simp [PutPc.rank]⟩
    | some t =>
      simp only [putStep, ha, Bool.false_eq_true, if_false, Option.some.injEq, Prod.mk.injEq] at h
      obtain ⟨rfl, rfl⟩ := h
      exact ⟨⟨hpc.1, rfl, hpc.2⟩, by simp [PutPc.rank]⟩
  | cleaning t outcome =>
    obtain ⟨hplace, houtcome⟩ := hpc
    obtain ⟨⟨directory, suffix, hname⟩, hkind⟩ := htemp t rfl
    simp only [putStep, unlinkTemporary, hplace.name, hkind, if_false, reduceCtorEq, Option.some.injEq,
      Prod.mk.injEq] at h
    obtain ⟨rfl, rfl⟩ := h
    refine ⟨?_, by simp [PutPc.rank]⟩
    have hkept : ∀ content, f.Holds (.digest (H.hexdigest body)) content →
        (f.unlink t.name).Holds (.digest (H.hexdigest body)) content := by
      intro content hholds
      obtain ⟨i, hi, hregular⟩ := hholds
      exact ⟨i, by rw [Files.names_unlink, if_neg (by simp [hname])]; exact hi, hregular⟩
    cases outcome with
    | ok r => exact ⟨houtcome.1, hkept body houtcome.2⟩
    | error e =>
      obtain ⟨he, other, hother, hne⟩ := houtcome
      exact ⟨he, other, hkept other hother, hne⟩
  | finished t outcome => cases h

/-! ### Steps of others -/

theorem Files.Holds.keep {digest : String} {content : Bytes} (h : f.Holds (.digest digest) content)
    (hk : Keeps f f') : f'.Holds (.digest digest) content := by
  obtain ⟨i, hi, hregular⟩ := h
  exact ⟨i, hk.name digest i hi, by rwa [hk.node digest i hi]⟩

theorem Verification.Calm.keep {v : Verification} (h : v.Calm H f body) (hk : Keeps f f') : v.Calm H f' body := by
  cases v with
  | lstat => trivial
  | opening =>
    obtain ⟨i, hi⟩ := h
    exact ⟨i, hk.name _ i hi⟩
  | fstat fd => exact hk.name _ fd h
  | reading fd seen chunk =>
    obtain ⟨hname, hcontent⟩ := h
    refine ⟨hk.name _ fd hname, ?_⟩
    rwa [hk.node _ fd hname]

theorem OutcomeCalm.keep {outcome : Except StorageError Stored} (h : OutcomeCalm H f body outcome) (hk : Keeps f f') :
    OutcomeCalm H f' body outcome := by
  cases outcome with
  | ok r => exact ⟨h.1, h.2.keep hk⟩
  | error e =>
    obtain ⟨he, other, hother, hne⟩ := h
    exact ⟨he, other, hother.keep hk, hne⟩

theorem PutPc.Calm.keep {pc : PutPc} (h : pc.Calm H f body) (hk : Keeps f f')
    (hplace : ∀ t content, pc.temporary? = some t → InPlace f t content → InPlace f' t content) :
    pc.Calm H f' body := by
  cases pc with
  | entering => trivial
  | checking v => exact Verification.Calm.keep h hk
  | staging => trivial
  | writing t written => exact ⟨hplace t _ rfl h.1, h.2⟩
  | linking t attempt => exact hplace t _ rfl h
  | confirming t occupied v =>
    obtain ⟨hin, ⟨i, hi⟩, hv⟩ := h
    exact ⟨hplace t _ rfl hin, ⟨i, hk.name _ i hi⟩, hv.keep hk⟩
  | securing t =>
    cases t with
    | none => exact Files.Holds.keep h hk
    | some t => exact ⟨hplace t _ rfl h.1, h.2.keep hk⟩
  | cleaning t outcome => exact ⟨hplace t _ rfl h.1, h.2.keep hk⟩
  | finished t outcome => exact OutcomeCalm.keep h hk

/-- A `put` leaves another's temporary file in place. -/
theorem PutEffect.others {s : State} (howned : Owned s) {id id' : Nat} {pc pc' pc₁ : PutPc}
    (hcall : s.calls id = some (.put body pc)) (heffect : PutEffect H s.files body pc pc' f') (hid : id' ≠ id)
    {t : Temporary} (hs : s.Stages id' pc₁ t) {content : Bytes} (h : InPlace s.files t content) :
    InPlace f' t content := by
  obtain ⟨⟨directory, suffix, hname⟩, hhanded⟩ := howned.name id' pc₁ t hs
  cases heffect with
  | quiet => exact h
  | created suffix inode hpc hfree hunused =>
    have hne : t.name ≠ .temporary (parent (H.hexdigest body)) suffix := fun heq => hunused (heq ▸ hhanded)
    have hnode : t.fd ≠ s.files.next := Nat.ne_of_lt (howned.node id' pc₁ t hs).1
    exact ⟨by simpa [hne] using h.name, by simpa [hnode] using h.content⟩
  | wrote t₀ written amount hpc hmore =>
    subst hpc
    have hs₀ : s.Stages id (.writing t₀ written) t₀ := ⟨body, hcall, rfl⟩
    have hne : t.fd ≠ t₀.fd := by
      intro heq
      obtain hsame | ⟨hwriting, -⟩ := howned.named id _ t₀ hs₀ t.name (heq ▸ h.name)
      · exact hid (howned.apart id' id pc₁ _ t t₀ hs hs₀ hsame)
      · cases hwriting
    exact ⟨h.name, by simpa [hne] using h.content⟩
  | linked t₀ attempt i hpc hi hfree => exact h.link (by simp [hname]) i
  | cleaned t₀ outcome hpc =>
    subst hpc
    have hs₀ : s.Stages id (.cleaning t₀ outcome) t₀ := ⟨body, hcall, rfl⟩
    have hne : t.name ≠ t₀.name := fun heq => hid (howned.apart id' id pc₁ _ t t₀ hs hs₀ heq)
    exact ⟨by simpa [hne] using h.name, h.content⟩
  | refused => exact h

/-- What is linked has the digest of its path. -/
theorem PutEffect.intact {s : State} (howned : Owned s) (hf : Intact H s.files) {id : Nat} {pc pc' : PutPc}
    (hcall : s.calls id = some (.put body pc)) (hpc : pc.Calm H s.files body)
    (heffect : PutEffect H s.files body pc pc' f') : Intact H f' := by
  have hkeeps := heffect.keeps howned hcall
  cases heffect with
  | quiet => exact hf
  | created suffix inode hpc hfree hunused =>
    refine ⟨fun digest i hi => ?_, fun directory suffix' i hi => ?_⟩
    · have hold : s.files.names (.digest digest) = some i := by simpa using hi
      rw [hkeeps.node digest i hold]
      exact hf.digests digest i hold
    · rw [Files.names_create] at hi
      split at hi
      · rename_i heq
        exact heq ▸ List.mem_cons_self ..
      · exact List.mem_cons_of_mem _ (hf.others _ _ i hi)
  | wrote t written amount hpc hmore =>
    refine ⟨fun digest i hi => ?_, hf.others⟩
    have hold : s.files.names (.digest digest) = some i := hi
    rw [hkeeps.node digest i hold]
    exact hf.digests digest i hold
  | linked t attempt i hpc' hi hfree =>
    subst hpc'
    have hplace : InPlace s.files t body := hpc
    cases hplace.name.symm.trans hi
    refine ⟨fun digest j hj => ?_, fun directory suffix j hj => ?_⟩
    · rw [Files.names_link] at hj
      split at hj
      · rename_i heq
        cases hj
        cases heq
        exact ⟨(howned.node id _ t ⟨body, hcall, rfl⟩).2, congrArg H.hexdigest hplace.content⟩
      · exact hf.digests digest j hj
    · rw [Files.names_link, if_neg (by simp)] at hj
      exact hf.others _ _ j hj
  | cleaned t outcome hpc' =>
    refine ⟨fun digest j hj => ?_, fun directory suffix j hj => ?_⟩
    · rw [Files.names_unlink] at hj
      split at hj
      · cases hj
      · exact hf.digests digest j hj
    · rw [Files.names_unlink] at hj
      split at hj
      · cases hj
      · exact hf.others _ _ j hj
  | refused => exact hf

/-! ### Undisturbed runs -/

structure Calm (H : Hash) (s : State) : Prop where
  owned : Owned s
  intact : Intact H s.files
  puts : ∀ id body pc, s.calls id = some (.put body pc) → pc.Calm H s.files body

theorem Calm.begins {s : State} (hs : Begins s) (hf : Intact H s.files) : Calm H s := by
  refine ⟨.begins hs, hf, fun id body pc hcall => ?_⟩
  rw [hs.quiet] at hcall
  cases hcall

/-- The facts about a temporary file that a step of its `put` rests on. -/
theorem Calm.temporary {s : State} (h : Calm H s) {id : Nat} {pc : PutPc} (hcall : s.calls id = some (.put body pc)) :
    ∀ t, pc.temporary? = some t →
      (∃ directory suffix, t.name = .temporary directory suffix) ∧ (s.files.nodes t.fd).kind = .regular :=
  fun t ht => ⟨(h.owned.name id pc t ⟨body, hcall, ht⟩).1, (h.owned.node id pc t ⟨body, hcall, ht⟩).2⟩

theorem step_calm {s s' : State} {a : Act} (h : Calm H s) (ha : Undisturbed a) (hstep : step H s a = some s') :
    Calm H s' := by
  have hmoved := step_moved hstep
  have hkeeps := step_keeps h.owned ha.inside hstep
  refine ⟨step_owned h.owned hstep, ?_, fun id body pc' hcall => ?_⟩
  · cases hmoved with
    | put => exact h.intact
    | get => exact h.intact
    | putStep hcall hput => exact (putStep_effect hput).intact h.owned h.intact hcall (h.puts _ _ _ hcall)
    | getStep => exact h.intact
    | outside houtside => exact absurd ha.inside (by simp [houtside])
  · obtain hsame | ⟨-, rfl⟩ | ⟨answer, pc, f, rfl, hcall₀, hput, rfl⟩ := hmoved.put_call hcall
    · refine (h.puts id body pc' hsame).keep hkeeps fun t content ht hplace => ?_
      cases hmoved with
      | put => exact hplace
      | get => exact hplace
      | @putStep id₀ answer body₀ pc₀ pc₁ f₀ hcall₀ hput =>
        by_cases hid : id = id₀
        · -- Its own step, which has moved it.
          subst hid
          exfalso
          have hcalm := putStep_calm h.intact (ha.granted id answer rfl) (h.puts _ _ _ hcall₀) (h.temporary hcall₀) hput
          rw [State.calls_setCall, if_pos rfl] at hcall
          cases hcall
          cases hcall₀.symm.trans hsame
          exact absurd hcalm.2 (Nat.lt_irrefl _)
        · exact (putStep_effect hput).others h.owned hcall₀ hid ⟨body, hsame, ht⟩ hplace
      | getStep => exact hplace
      | outside houtside => exact absurd ha.inside (by simp [houtside])
    · trivial
    · exact (putStep_calm h.intact (ha.granted id answer rfl) (h.puts id body pc hcall₀) (h.temporary hcall₀) hput).1

theorem run_calm {s s' : State} {actions : List Act} (h : Calm H s)
    (ho : (machine H).Obeys (fun _ a => Undisturbed a) s actions) (hr : (machine H).run s actions = some s') :
    Calm H s' :=
  Machine.run_invariant (I := Calm H) (fun _ _ _ h ha hstep => step_calm h ha hstep) h ho hr

/-! ### A `get` of what was put -/

def GetPc.Calm (H : Hash) (f : Files) (body : Bytes) : GetPc → Prop
  | .lstat digest => digest = H.hexdigest body
  | .opening digest inode => digest = H.hexdigest body ∧
    ∃ i, f.names (.digest digest) = some i ∧ (f.nodes i).inode = inode
  | .fstat digest inode fd => digest = H.hexdigest body ∧ f.names (.digest digest) = some fd ∧
    (f.nodes fd).inode = inode
  | .reading digest fd expected chunks => digest = H.hexdigest body ∧ f.names (.digest digest) = some fd ∧
    expected = body.length ∧ chunks <+: body
  | .confirming digest fd expected chunks => digest = H.hexdigest body ∧ f.names (.digest digest) = some fd ∧
    expected = body.length ∧ chunks = body
  | .finished outcome => outcome = .ok body

def GetPc.rank (body : Bytes) : GetPc → Nat
  | .lstat _ => body.length + 5
  | .opening _ _ => body.length + 4
  | .fstat _ _ _ => body.length + 3
  | .reading _ _ _ chunks => body.length - chunks.length + 2
  | .confirming _ _ _ _ => 1
  | .finished _ => 0

theorem uriDigest_stored (H : Hash) (body : Bytes) : uriDigest (stored H body).1 = some (H.hexdigest body) := by
  have hprefix : casPrefix.toList <+: (stored H body).1.toList := by
    rw [stored, String.toList_append]
    exact List.prefix_append _ _
  rw [uriDigest, if_pos hprefix, stored, String.toList_append, List.drop_left, String.ofList_toList]

/-- A bound that the body is within. -/
def Fits (body : Bytes) (maximumBytes : Option Int) : Prop := ∀ bound ∈ maximumBytes, (body.length : Int) ≤ bound

theorem getStart_stored (H : Hash) {maximumBytes : Option Int} (hfits : Fits body maximumBytes) :
    getStart (stored H body).1 maximumBytes = .lstat (H.hexdigest body) := by
  have hnonneg : ¬ ∃ bound ∈ maximumBytes, bound < 0 := by
    rintro ⟨bound, hbound, hneg⟩
    have hle := hfits bound hbound
    omega
  simp only [getStart, uriDigest_stored, H.isDigest_hexdigest, hnonneg, if_false, Bool.true_eq_false]

/-- **One step of `get`**, where the digest path holds the body. -/
theorem getStep_calm (hbody : f.Holds (.digest (H.hexdigest body)) body) {maximumBytes : Option Int}
    (hfits : Fits body maximumBytes) {a : Answer} (ha : a.fails = false) {pc pc' : GetPc} (hpc : pc.Calm H f body)
    (h : getStep H f maximumBytes a pc = some pc') : pc'.Calm H f body ∧ pc'.rank body < pc.rank body := by
  obtain ⟨i, hi, hkind, hcontent⟩ := hbody
  have hbound : ∀ n ≤ body.length, ¬ ∃ bound ∈ maximumBytes, bound < (n : Int) := by
    rintro n hn ⟨bound, hmem, hlt⟩
    have hle := hfits bound hmem
    omega
  cases pc with
  | lstat digest =>
    cases hpc
    simp only [getStep, ha, hi, hkind, Bool.false_eq_true, if_false, if_true, Option.some.injEq] at h
    subst h
    exact ⟨⟨rfl, i, hi, rfl⟩, by simp [GetPc.rank]⟩
  | opening digest inode =>
    obtain ⟨rfl, j, hj, hinode⟩ := hpc
    cases hi.symm.trans hj
    simp only [getStep, ha, hi, hkind, Bool.false_eq_true, if_false, Option.some.injEq, reduceCtorEq] at h
    subst h
    exact ⟨⟨rfl, hi, hinode⟩, by simp [GetPc.rank]⟩
  | fstat digest inode fd =>
    obtain ⟨rfl, hfd, rfl⟩ := hpc
    cases hi.symm.trans hfd
    simp only [getStep, ha, hkind, hcontent, hbound body.length (Nat.le_refl _), ne_eq, not_true_eq_false,
      Bool.false_eq_true, if_false, Option.some.injEq] at h
    subst h
    exact ⟨⟨rfl, hi, rfl, List.nil_prefix⟩, by simp [GetPc.rank]⟩
  | reading digest fd expected chunks =>
    obtain ⟨rfl, hfd, rfl, hchunks⟩ := hpc
    cases hi.symm.trans hfd
    simp only [getStep, ha, hcontent, Bool.false_eq_true, if_false, Option.some.injEq] at h
    obtain ⟨want, hwant⟩ : ∃ want, want = min chunkSize (max 1 (body.length - chunks.length + 1)) := ⟨_, rfl⟩
    have hpos : 0 < want := by
      rw [hwant, chunkSize]
      omega
    rw [← hwant] at h
    have hshown : chunks ++ rawRead body chunks.length want a.amount <+: body := prefix_append_read hchunks _
    have hend : rawRead body chunks.length want a.amount = [] → body.length ≤ chunks.length := end_of_empty_read hpos
    generalize rawRead body chunks.length want a.amount = chunk at h hshown hend
    have hlength := hshown.length_le
    split at h
    · rename_i hnil
      subst h
      have hall : chunks = body := hchunks.eq_of_length (Nat.le_antisymm hchunks.length_le (hend hnil))
      exact ⟨⟨rfl, hi, rfl, hall⟩, by simp only [GetPc.rank]; omega⟩
    · rename_i hne
      rw [if_neg (not_or.mpr ⟨Nat.not_lt.mpr hlength, hbound _ hlength⟩)] at h
      subst h
      have hchunk := List.length_pos_of_ne_nil hne
      rw [List.length_append] at hlength
      exact ⟨⟨rfl, hi, rfl, hshown⟩, by simp only [GetPc.rank, List.length_append]; omega⟩
  | confirming digest fd expected chunks =>
    obtain ⟨rfl, hfd, rfl, rfl⟩ := hpc
    cases hi.symm.trans hfd
    simp only [getStep, ha, hcontent, ne_eq, not_true_eq_false, or_self, Bool.false_eq_true, if_false,
      Option.some.injEq] at h
    subst h
    exact ⟨rfl, by simp [GetPc.rank]⟩
  | finished outcome => cases h

theorem GetPc.Calm.keep {pc : GetPc} (h : pc.Calm H f body) (hk : Keeps f f') : pc.Calm H f' body := by
  cases pc with
  | lstat digest => exact h
  | opening digest inode =>
    obtain ⟨hdigest, i, hi, hinode⟩ := h
    exact ⟨hdigest, i, hk.name _ i hi, by rwa [hk.node _ i hi]⟩
  | fstat digest inode fd =>
    obtain ⟨hdigest, hfd, hinode⟩ := h
    exact ⟨hdigest, hk.name _ fd hfd, by rwa [hk.node _ fd hfd]⟩
  | reading digest fd expected chunks => exact ⟨h.1, hk.name _ fd h.2.1, h.2.2⟩
  | confirming digest fd expected chunks => exact ⟨h.1, hk.name _ fd h.2.1, h.2.2⟩
  | finished outcome => exact h

/-- The digest path holds the body, and each `get` of it among these finds it. -/
structure Served (H : Hash) (body : Bytes) (among : Nat → Prop) (s : State) : Prop where
  calm : Calm H s
  holds : s.files.Holds (.digest (H.hexdigest body)) body
  gets : ∀ id maximumBytes pc, among id → Fits body maximumBytes →
    s.calls id = some (.get (stored H body).1 maximumBytes pc) → pc.Calm H s.files body

theorem step_served {among : Nat → Prop} {s s' : State} {a : Act} (h : Served H body among s) (ha : Undisturbed a)
    (hstep : step H s a = some s') : Served H body among s' := by
  have hkeeps := step_keeps h.calm.owned ha.inside hstep
  refine ⟨step_calm h.calm ha hstep, h.holds.keep hkeeps, fun id maximumBytes pc' hid hfits hcall => ?_⟩
  obtain hsame | ⟨-, rfl⟩ | ⟨answer, pc, rfl, hcall₀, hget, rfl⟩ := (step_moved hstep).get_call hcall
  · exact (h.gets id maximumBytes pc' hid hfits hsame).keep hkeeps
  · rw [getStart_stored H hfits]
    rfl
  · exact (getStep_calm h.holds hfits (ha.granted id answer rfl) (h.gets id maximumBytes pc hid hfits hcall₀) hget).1

theorem run_served {among : Nat → Prop} {s s' : State} {actions : List Act} (h : Served H body among s)
    (ho : (machine H).Obeys (fun _ a => Undisturbed a) s actions) (hr : (machine H).run s actions = some s') :
    Served H body among s' :=
  Machine.run_invariant (I := Served H body among) (fun _ _ _ h ha hstep => step_served h ha hstep) h ho hr

/-! ### Calls end -/

def Call.isFinished : Call → Bool
  | .put _ (.finished _ _) | .get _ _ (.finished _) => true
  | _ => false

def Act.isStep (id : Nat) : Act → Bool
  | .step id' _ => id' == id
  | _ => false

def Call.rank (body : Bytes) : Call → Nat
  | .put _ pc => pc.rank body
  | .get _ _ pc => pc.rank body

def State.rank (body : Bytes) (id : Nat) (s : State) : Nat := (s.calls id).elim 0 (Call.rank body)

/-- A call is finished or can go on, and takes no more than so many steps. -/
structure Ends (H : Hash) (s : State) (id bound : Nat) : Prop where
  goesOn : ∃ c, s.calls id = some c ∧
    (c.isFinished = true ∨ ∃ answer s', answer.fails = false ∧ step H s (.step id answer) = some s')
  soon : ∀ more s', (machine H).Obeys (fun _ a => Undisturbed a) s more → (machine H).run s more = some s' →
    more.countP (Act.isStep id) ≤ bound

/-- A call moves by its own steps only. -/
theorem call_kept {s s' : State} {a : Act} {id : Nat} {c : Call} (hstep : step H s a = some s')
    (ha : a.isStep id = false) (hc : s.calls id = some c) : s'.calls id = some c := by
  have hne : ∀ id', id' ≠ id → ∀ (t : State) c', t.calls id = some c → (t.setCall id' c').calls id = some c := by
    intro id' hid t c' ht
    rw [State.calls_setCall, if_neg (Ne.symm hid)]
    exact ht
  cases step_moved hstep with
  | put hfree => exact hne _ (fun heq => by rw [heq, hc] at hfree; cases hfree) s _ hc
  | get hfree => exact hne _ (fun heq => by rw [heq, hc] at hfree; cases hfree) s _ hc
  | putStep hcall hput =>
    apply hne _ _ _ _ hc
    rintro rfl
    simp [Act.isStep] at ha
  | getStep hcall hget =>
    apply hne _ _ _ _ hc
    rintro rfl
    simp [Act.isStep] at ha
  | outside => exact hc

/-- Own steps that lower the rank are only so many. -/
theorem steps_le_rank (body : Bytes) {I : State → Prop} {id : Nat}
    (hinv : ∀ s a s', I s → Undisturbed a → step H s a = some s' → I s')
    (hcall : ∀ s, I s → ∃ c, s.calls id = some c)
    (hrank : ∀ s answer s', I s → answer.fails = false → step H s (.step id answer) = some s' →
      s'.rank body id < s.rank body id)
    {s s' : State} {more : List Act} (hs : I s) (ho : (machine H).Obeys (fun _ a => Undisturbed a) s more)
    (hr : (machine H).run s more = some s') : more.countP (Act.isStep id) ≤ s.rank body id := by
  have hcount := Machine.run_count (I := I) (State.rank body id) (Act.isStep id) (fun _ => false) hinv
    (fun s a s' hi ha hstep => by
      cases hown : a.isStep id with
      | true =>
        cases a with
        | step id' answer =>
          obtain rfl : id' = id := by simpa [Act.isStep] using hown
          have hlt := hrank s answer s' hi (ha.granted _ answer rfl) hstep
          simp only [if_true, Bool.false_eq_true, if_false]
          omega
        | _ => cases hown
      | false =>
        obtain ⟨c, hc⟩ := hcall s hi
        simp [State.rank, hc, call_kept hstep hown hc]) hs ho hr
  have hnone : more.countP (fun _ => false) = 0 := List.countP_eq_zero.mpr (by simp)
  omega

theorem Verification.rank_le (body : Bytes) (v : Verification) : v.rank body ≤ 2 * body.length + 5 := by
  cases v with
  | reading fd seen chunk =>
    simp only [Verification.rank]
    split <;> omega
  | _ => simp [Verification.rank]

theorem PutPc.rank_le (body : Bytes) (pc : PutPc) : pc.rank body ≤ 5 * body.length + 16 := by
  cases pc with
  | checking v =>
    have hv := v.rank_le body
    simp only [PutPc.rank]
    omega
  | confirming t occupied v =>
    have hv := v.rank_le body
    simp only [PutPc.rank]
    omega
  | _ => simp only [PutPc.rank]; omega

theorem GetPc.rank_le (body : Bytes) (pc : GetPc) : pc.rank body ≤ body.length + 5 := by
  cases pc <;> simp only [GetPc.rank] <;> omega

/-- There is always a name that `mkstemp` has not given out. -/
theorem exists_unused (directory : String) (handedOut : List Path) :
    ∃ suffix, .temporary directory suffix ∉ handedOut := by
  have hlater : ∃ bound, ∀ suffix, bound ≤ suffix → .temporary directory suffix ∉ handedOut := by
    induction handedOut with
    | nil => exact ⟨0, fun _ _ => List.not_mem_nil⟩
    | cons p rest ih =>
      obtain ⟨bound, hbound⟩ := ih
      cases p with
      | digest digest => exact ⟨bound, fun suffix hle => by simp [hbound suffix hle]⟩
      | temporary directory' suffix' =>
        refine ⟨max bound (suffix' + 1), fun suffix hle => ?_⟩
        have hrest := hbound suffix (by omega)
        have hne : suffix ≠ suffix' := by omega
        simp [hrest, hne]
  obtain ⟨bound, hbound⟩ := hlater
  exact ⟨bound, hbound bound (Nat.le_refl _)⟩

/-- A `put` that is not finished has a next step that is granted. -/
theorem putStep_goes_on (body : Bytes) (hf : Intact H f) (pc : PutPc) : (∃ t outcome, pc = .finished t outcome) ∨
    ∃ a pc' f', a.fails = false ∧ putStep H f body a pc = some (pc', f') := by
  cases pc with
  | finished t outcome => exact .inl ⟨t, outcome, rfl⟩
  | staging =>
    obtain ⟨suffix, hunused⟩ := exists_unused (parent (H.hexdigest body)) f.handedOut
    have hfree : f.names (.temporary (parent (H.hexdigest body)) suffix) = none := by
      cases hname : f.names (.temporary (parent (H.hexdigest body)) suffix) with
      | none => rfl
      | some i => exact absurd (hf.others _ _ i hname) hunused
    exact .inr ⟨{suffix}, _, _, rfl, by
      simp only [putStep, Bool.false_eq_true, if_false, if_pos (And.intro hfree hunused)]; rfl⟩
  | entering => exact .inr ⟨{}, _, _, rfl, rfl⟩
  | checking v =>
    right
    cases hv : verifyExisting H f body {} v <;> exact ⟨{}, _, _, rfl, by simp only [putStep, hv]; rfl⟩
  | writing t written =>
    right
    by_cases hmore : written < body.length
    · exact ⟨{}, _, _, rfl, by simp only [putStep, Bool.false_eq_true, if_false, if_pos hmore]; rfl⟩
    · exact ⟨{}, _, _, rfl, by simp only [putStep, Bool.false_eq_true, if_false, if_neg hmore]; rfl⟩
  | linking t attempt => exact .inr ⟨{}, _, _, rfl, rfl⟩
  | confirming t occupied v =>
    right
    cases hv : verifyExisting H f body {} v with
    | missing => cases occupied <;> exact ⟨{}, _, _, rfl, by simp only [putStep, hv]; rfl⟩
    | _ => exact ⟨{}, _, _, rfl, by simp only [putStep, hv]; rfl⟩
  | securing t => cases t <;> exact .inr ⟨{}, _, _, rfl, rfl⟩
  | cleaning t outcome => exact .inr ⟨{}, _, _, rfl, rfl⟩

/-- **A `put` ends.** -/
theorem Calm.put_ends {s : State} (h : Calm H s) {id : Nat} {pc : PutPc} (hcall : s.calls id = some (.put body pc)) :
    Ends H s id (5 * body.length + 16) where
  goesOn := by
    refine ⟨_, hcall, ?_⟩
    obtain ⟨t, outcome, rfl⟩ | ⟨a, pc', f, ha, hput⟩ := putStep_goes_on body h.intact pc
    · exact .inl rfl
    · exact .inr ⟨a, _, ha, by simp only [step, hcall, hput]; rfl⟩
  soon := by
    intro more s' ho hr
    refine Nat.le_trans (steps_le_rank body (I := fun s => Calm H s ∧ ∃ pc, s.calls id = some (.put body pc))
      ?_ ?_ ?_ ⟨h, pc, hcall⟩ ho hr) ?_
    · intro s a s' hs ha hstep
      refine ⟨step_calm hs.1 ha hstep, ?_⟩
      obtain ⟨-, pc, hcall⟩ := hs
      cases hown : a.isStep id with
      | false => exact ⟨pc, call_kept hstep hown hcall⟩
      | true =>
        cases a with
        | step id' answer =>
          obtain rfl : id' = id := by simpa [Act.isStep] using hown
          simp only [step, hcall, Option.map_eq_some_iff, Prod.exists] at hstep
          obtain ⟨pc', f, -, rfl⟩ := hstep
          exact ⟨pc', by simp [State.calls_setCall]⟩
        | _ => cases hown
    · exact fun s hs => ⟨_, hs.2.choose_spec⟩
    · intro s answer s' hs ha hstep
      obtain ⟨hcalm, pc, hcall⟩ := hs
      simp only [step, hcall, Option.map_eq_some_iff, Prod.exists] at hstep
      obtain ⟨pc', f, hput, rfl⟩ := hstep
      have hlt := (putStep_calm hcalm.intact ha (hcalm.puts id body pc hcall) (hcalm.temporary hcall) hput).2
      simpa [State.rank, State.calls_setCall, hcall, Call.rank] using hlt
    · simpa [State.rank, hcall, Call.rank] using pc.rank_le body

theorem getStep_goes_on (H : Hash) (f : Files) (maximumBytes : Option Int) (pc : GetPc) :
    (∃ outcome, pc = .finished outcome) ∨ ∃ pc', getStep H f maximumBytes {} pc = some pc' := by
  cases pc with
  | finished outcome => exact .inl ⟨outcome, rfl⟩
  | _ => exact .inr ⟨_, rfl⟩

/-- **A `get` of what is there ends.** -/
theorem Served.get_ends {among : Nat → Prop} {s : State} (h : Served H body among s) {id : Nat} (hid : among id)
    {maximumBytes : Option Int} (hfits : Fits body maximumBytes) {pc : GetPc}
    (hcall : s.calls id = some (.get (stored H body).1 maximumBytes pc)) : Ends H s id (body.length + 5) where
  goesOn := by
    refine ⟨_, hcall, ?_⟩
    obtain ⟨outcome, rfl⟩ | ⟨pc', hget⟩ := getStep_goes_on H s.files maximumBytes pc
    · exact .inl rfl
    · exact .inr ⟨{}, _, rfl, by simp only [step, hcall, hget]; rfl⟩
  soon := by
    intro more s' ho hr
    refine Nat.le_trans (steps_le_rank body (I := fun s => Served H body among s ∧
      ∃ pc, s.calls id = some (.get (stored H body).1 maximumBytes pc)) ?_ ?_ ?_ ⟨h, pc, hcall⟩ ho hr) ?_
    · intro s a s' hs ha hstep
      refine ⟨step_served hs.1 ha hstep, ?_⟩
      obtain ⟨-, pc, hcall⟩ := hs
      cases hown : a.isStep id with
      | false => exact ⟨pc, call_kept hstep hown hcall⟩
      | true =>
        cases a with
        | step id' answer =>
          obtain rfl : id' = id := by simpa [Act.isStep] using hown
          simp only [step, hcall, Option.map_eq_some_iff] at hstep
          obtain ⟨pc', -, rfl⟩ := hstep
          exact ⟨pc', by simp [State.calls_setCall]⟩
        | _ => cases hown
    · exact fun s hs => ⟨_, hs.2.choose_spec⟩
    · intro s answer s' hs ha hstep
      obtain ⟨hserved, pc, hcall⟩ := hs
      simp only [step, hcall, Option.map_eq_some_iff] at hstep
      obtain ⟨pc', hget, rfl⟩ := hstep
      have hlt := (getStep_calm hserved.holds hfits ha (hserved.gets id maximumBytes pc hid hfits hcall) hget).2
      simpa [State.rank, State.calls_setCall, hcall, Call.rank] using hlt
    · simpa [State.rank, hcall, Call.rank] using pc.rank_le body

/-! ### The contract -/

/-- What was put comes back: a `put` returns, unless its path holds another body of the same
digest, and a `get` begun after that returns the body. -/
structure RoundTrips (H : Hash) (s : State) : Prop where
  ends : ∀ id body pc, s.calls id = some (.put body pc) → Ends H s id (5 * body.length + 16)
  returns : ∀ id body t outcome, s.calls id = some (.put body (.finished t outcome)) →
    outcome = .ok (stored H body) ∨ ∃ other, other ≠ body ∧ H.hexdigest other = H.hexdigest body ∧
      s.files.Holds (.digest (H.hexdigest body)) other
  gives : ∀ id body t r, s.calls id = some (.put body (.finished t (.ok r))) → ∀ more s',
    (machine H).Obeys (fun _ a => Undisturbed a) s more → (machine H).run s more = some s' →
    ∀ id' maximumBytes pc, s.calls id' = none → Fits body maximumBytes →
      s'.calls id' = some (.get r.1 maximumBytes pc) →
      Ends H s' id' (body.length + 5) ∧ ∀ outcome, pc = .finished outcome → outcome = .ok body

theorem Calm.roundTrips {s : State} (h : Calm H s) : RoundTrips H s where
  ends := fun id body pc hcall => h.put_ends hcall
  returns := by
    intro id body t outcome hcall
    have houtcome : OutcomeCalm H s.files body outcome := h.puts id body _ hcall
    cases outcome with
    | ok r => exact .inl (congrArg Except.ok houtcome.1)
    | error e =>
      obtain ⟨-, other, hholds, hne⟩ := houtcome
      refine .inr ⟨other, hne, ?_, hholds⟩
      obtain ⟨i, hi, -, rfl⟩ := hholds
      exact (h.intact.digests _ i hi).2
  gives := by
    intro id body t r hcall more s' ho hr id' maximumBytes pc hnew hfits hget
    have houtcome : OutcomeCalm H s.files body (.ok r) := h.puts id body _ hcall
    obtain ⟨rfl, hholds⟩ := houtcome
    have hserved : Served H body (fun id => s.calls id = none) s :=
      ⟨h, hholds, fun id maximumBytes pc hid _ hcall => by rw [hid] at hcall; cases hcall⟩
    have hlater := run_served hserved ho hr
    refine ⟨hlater.get_ends hnew hfits hget, fun outcome hpc => ?_⟩
    subst hpc
    exact hlater.gets id' maximumBytes _ hnew hfits hget

/-- **The content store under any interference**, at every point of every run: what a `get`
returns hashes to its URI and is within its bound; a `put` that returned has read the
whole body from the file it opened at the digest path in its last verification; no step
of the store changes what stands at a digest path; a finished `put` leaves nothing
temporary; and on its own the store gives back what was put. -/
theorem cas_contract {s₀ s : State} {actions : List Act} (hs : Begins s₀) (hr : (machine H).run s₀ actions = some s) :
    (∀ id uri maximumBytes body, s.calls id = some (.get uri maximumBytes (.finished (.ok body))) →
      uriDigest uri = some (H.hexdigest body) ∧ Fits body maximumBytes) ∧
    (∀ id body t r, s.calls id = some (.put body (.finished t (.ok r))) → Verified H s₀ actions id body) ∧
    (∀ a s', a.outside = false → step H s a = some s' → Keeps s.files s'.files) ∧
    (∀ id body t outcome, s.calls id = some (.put body (.finished (some t) outcome)) →
      ∀ directory suffix, s.files.names (.temporary directory suffix) ≠ some t.fd) ∧
    (Intact H s₀.files → (machine H).Obeys (fun _ a => Undisturbed a) s₀ actions → RoundTrips H s) := by
  have howned := run_owned hs hr
  refine ⟨?_, ?_, ?_, ?_, ?_⟩
  · exact fun id uri maximumBytes body hcall => run_bounded hs hr id uri maximumBytes _ hcall
  · exact fun id body t r hcall => put_verified hs hr hcall
  · exact fun a s' hinside hstep => step_keeps howned hinside hstep
  · exact fun id body t outcome hcall => howned.nothing_remains hcall
  · exact fun hintact ho => (run_calm (.begins hs hintact) ho hr).roundTrips

def Act.refused : Act → Bool
  | .step _ a => a.fails
  | _ => false

instance (a : Act) : Decidable (Undisturbed a) :=
  decidable_of_iff (a.outside = false ∧ a.refused = false)
    ⟨fun h => ⟨h.1, fun id answer heq => by subst heq; exact h.2⟩,
      fun h => ⟨h.inside, by cases a <;> first | rfl | exact h.granted _ _ rfl⟩⟩

/-- Two calls of `put` with one body side by side, then a `get`. -/
def quietRun : List Act :=
  [.put 0 [97], .put 1 [97]] ++ (List.replicate 6 [.step 0 {}, .step 1 {suffix := 1}]).flatten ++
    List.replicate 8 (.step 0 {}) ++ List.replicate 8 (.step 1 {}) ++
    [.get 2 (stored sampleHash [97]).1 (some 1)] ++ List.replicate 6 (.step 2 {})

theorem cas_contract_quiet : ∃ s, (machine sampleHash).run emptyRoot quietRun = some s ∧
    s.calls 2 = some (.get (stored sampleHash [97]).1 (some 1) (.finished (.ok [97]))) ∧
    Verified sampleHash emptyRoot quietRun 1 [97] ∧ RoundTrips sampleHash s := by
  have hbegins : Begins emptyRoot := ⟨fun _ => rfl, fun _ _ h => (by cases h)⟩
  have hintact : Intact sampleHash emptyRoot.files := 
    ⟨fun _ _ h => (by cases h), fun _ _ _ h => (by cases h)⟩
  have hcalls : ((machine sampleHash).run emptyRoot quietRun).map (fun s => (s.calls 1, s.calls 2)) =
      some (some (.put [97] (.finished (some ⟨.temporary "ca97" 1, 1⟩) (.ok (stored sampleHash [97])))),
        some (.get (stored sampleHash [97]).1 (some 1) (.finished (.ok [97])))) := by
    decide +kernel
  obtain ⟨s, hs, hcalls⟩ := Option.map_eq_some_iff.mp hcalls
  rw [Prod.mk.injEq] at hcalls
  have hundisturbed : ∀ a ∈ quietRun, Undisturbed a := by decide +kernel
  have h := cas_contract hbegins hs
  exact ⟨s, hs, hcalls.2, h.2.1 1 [97] _ _ hcalls.1, h.2.2.2.2 hintact (Machine.obeys_of_forall _ hundisturbed)⟩

end Fetech.Storage
