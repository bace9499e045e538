import Fetech.Storage.Interference

/-! What a `put` that returns has verified.

The last verification of a `put` reads through one descriptor, byte after byte, while
others go on. `Evidence` follows it along the run: where the digest path was opened,
that the file had the body's length, and when each byte was seen. The path itself may
be gone by then, and there need not be one moment at which the path held the body:
`unheld_body_stored`. -/
namespace Fetech.Storage
open Lib

variable {H : Hash}

/-! ### One step of `_verify_existing` -/

section Step
variable {f : Files} {body : Bytes} {a : Answer} {v : Verification} {fd : Nat} {seen chunk : Bytes}

theorem verifyExisting_lstat {e : Verdict} (h : verifyExisting H f body a .lstat = e) :
    (∃ e', e = .failed e') ∨ (e = .missing ∧ f.names (.digest (H.hexdigest body)) = none) ∨
      (e = .ongoing .opening ∧ ∃ i, f.names (.digest (H.hexdigest body)) = some i ∧ (f.nodes i).kind = .regular) := by
  subst h
  simp only [verifyExisting]
  split
  · exact .inl ⟨_, rfl⟩
  · split
    · rename_i hnone
      exact .inr (.inl ⟨rfl, hnone⟩)
    · rename_i i hi
      split
      · rename_i hkind
        exact .inr (.inr ⟨rfl, i, hi, hkind⟩)
      · exact .inl ⟨_, rfl⟩

theorem verifyExisting_opening {e : Verdict} (h : verifyExisting H f body a .opening = e) :
    (∃ e', e = .failed e') ∨ (e = .missing ∧ f.names (.digest (H.hexdigest body)) = none) ∨
      ∃ i, e = .ongoing (.fstat i) ∧ f.names (.digest (H.hexdigest body)) = some i := by
  subst h
  simp only [verifyExisting]
  split
  · exact .inl ⟨_, rfl⟩
  · split
    · rename_i hnone
      exact .inr (.inl ⟨rfl, hnone⟩)
    · rename_i i hi
      split
      · exact .inl ⟨_, rfl⟩
      · exact .inr (.inr ⟨i, rfl, hi⟩)

theorem verifyExisting_fstat {e : Verdict} (h : verifyExisting H f body a (.fstat fd) = e) :
    (∃ e', e = .failed e') ∨ (e = .ongoing (.reading fd [] []) ∧ (f.nodes fd).kind = .regular ∧
      (f.nodes fd).content.length = body.length) := by
  subst h
  simp only [verifyExisting]
  split
  · exact .inl ⟨_, rfl⟩
  · split
    · exact .inl ⟨_, rfl⟩
    · rename_i hsize
      simp only [not_or, not_not] at hsize
      exact .inr ⟨rfl, hsize⟩

/-- A read gives the bytes that stand at its position. -/
theorem rawRead_eq (content : Bytes) (position want amount : Nat) :
    ∃ n, rawRead content position want amount = (content.drop position).take n := ⟨_, rfl⟩

/-- A chunk in the making is shorter than what `handle.read` asks for. -/
theorem verifyExisting_reading {e : Verdict} (h : verifyExisting H f body a (.reading fd seen chunk) = e) :
    (∃ e', e = .failed e') ∨
      ∃ n, (e = .ongoing (.reading fd seen (chunk ++ ((f.nodes fd).content.drop (seen.length + chunk.length)).take n))) ∨
        (∃ whole, whole = chunk ++ ((f.nodes fd).content.drop (seen.length + chunk.length)).take n ∧
          e = .ongoing (.reading fd (seen ++ whole) []) ∧ whole = (body.drop seen.length).take whole.length) ∨
        (e = .found ∧ chunk = [] ∧ seen.length = body.length ∧ H.hexdigest seen = H.hexdigest body) := by
  subst h
  simp only [verifyExisting]
  split
  · exact .inl ⟨_, rfl⟩
  · obtain ⟨n, hn⟩ := rawRead_eq (f.nodes fd).content (seen.length + chunk.length) (chunkSize - chunk.length) a.amount
    rw [hn]
    split
    · exact .inr ⟨n, .inl rfl⟩
    · unfold compareChunk
      split
      · rename_i hempty
        split
        · exact .inl ⟨_, rfl⟩
        · rename_i hsame
          simp only [not_or, not_not] at hsame
          exact .inr ⟨n, .inr (.inr ⟨rfl, (List.append_eq_nil_iff.mp hempty).1, hsame⟩)⟩
      · split
        · exact .inl ⟨_, rfl⟩
        · rename_i hwhole
          exact .inr ⟨n, .inr (.inl ⟨_, rfl, rfl, not_not.mp hwhole⟩)⟩

end Step

/-! ### Where a `put` stands -/

def PutPc.verification? : PutPc → Option Verification
  | .checking v | .confirming _ _ v => some v
  | _ => none

/-- The last verification has found the body. -/
def PutPc.succeeded : PutPc → Bool
  | .securing _ | .cleaning _ (.ok _) | .finished _ (.ok _) => true
  | _ => false

theorem PutPc.verification?_of_succeeded {pc : PutPc} (h : pc.succeeded = true) : pc.verification? = none := by
  cases pc <;> first | rfl | cases h

/-- A step of `put`, as its verifications see it. -/
theorem putStep_verification {f f' : Files} {body : Bytes} {a : Answer} {pc pc' : PutPc}
    (h : putStep H f body a pc = some (pc', f')) :
    ((pc'.verification? = none ∨ pc'.verification? = some .lstat) ∧ pc'.succeeded = false) ∨
    (∃ v v', pc.verification? = some v ∧ verifyExisting H f body a v = .ongoing v' ∧ pc'.verification? = some v' ∧
      pc'.succeeded = false) ∨
    (∃ v, pc.verification? = some v ∧ verifyExisting H f body a v = .found ∧ pc'.verification? = none) ∨
    (pc.succeeded = true ∧ pc'.verification? = none) := by
  cases pc with
  | entering =>
    cases h
    cases a.fails
    · exact .inl ⟨.inr rfl, rfl⟩
    · exact .inl ⟨.inl rfl, rfl⟩
  | checking v =>
    cases hv : verifyExisting H f body a v with
    | ongoing v' =>
      simp only [putStep, hv] at h
      cases h
      exact .inr (.inl ⟨v, v', rfl, hv, rfl, rfl⟩)
    | found =>
      simp only [putStep, hv] at h
      cases h
      exact .inr (.inr (.inl ⟨v, rfl, hv, rfl⟩))
    | missing =>
      simp only [putStep, hv] at h
      cases h
      exact .inl ⟨.inl rfl, rfl⟩
    | failed e =>
      simp only [putStep, hv] at h
      cases h
      exact .inl ⟨.inl rfl, rfl⟩
  | staging =>
    simp only [putStep] at h
    split at h
    · cases h
      exact .inl ⟨.inl rfl, rfl⟩
    · split at h <;> cases h
      exact .inl ⟨.inl rfl, rfl⟩
  | writing t written =>
    simp only [putStep] at h
    split at h
    · cases h
      exact .inl ⟨.inl rfl, rfl⟩
    · split at h <;> cases h <;> exact .inl ⟨.inl rfl, rfl⟩
  | linking t attempt =>
    simp only [putStep, linkTarget] at h
    split at h
    · cases h
      exact .inl ⟨.inl rfl, rfl⟩
    · split at h
      · cases h
        exact .inl ⟨.inl rfl, rfl⟩
      · split at h
        · cases h
          exact .inl ⟨.inr rfl, rfl⟩
        · split at h <;> cases h
          · exact .inl ⟨.inl rfl, rfl⟩
          · exact .inl ⟨.inr rfl, rfl⟩
  | confirming t occupied v =>
    cases hv : verifyExisting H f body a v with
    | ongoing v' =>
      simp only [putStep, hv] at h
      cases h
      exact .inr (.inl ⟨v, v', rfl, hv, rfl, rfl⟩)
    | found =>
      simp only [putStep, hv] at h
      cases h
      exact .inr (.inr (.inl ⟨v, rfl, hv, rfl⟩))
    | missing =>
      simp only [putStep, hv] at h
      cases occupied with
      | none =>
        cases h
        exact .inl ⟨.inl rfl, rfl⟩
      | some attempt =>
        cases h
        unfold nextAttempt
        split <;> exact .inl ⟨.inl rfl, rfl⟩
    | failed e =>
      simp only [putStep, hv] at h
      cases h
      exact .inl ⟨.inl rfl, rfl⟩
  | securing t => cases t <;> cases h <;> exact .inr (.inr (.inr ⟨rfl, rfl⟩))
  | cleaning t outcome =>
    cases outcome with
    | error e =>
      simp only [putStep, unlinkTemporary] at h
      split at h
      · cases h
        exact .inl ⟨.inl rfl, rfl⟩
      · split at h <;> cases h <;> exact .inl ⟨.inl rfl, rfl⟩
    | ok r =>
      refine .inr (.inr (.inr ⟨rfl, ?_⟩))
      simp only [putStep, unlinkTemporary] at h
      split at h
      · cases h
        rfl
      · split at h <;> cases h <;> rfl
  | finished t outcome => cases h

/-! ### The last verification -/

/-- In `s` the `put` is about to open the digest path, which names node `i`, and along
`rest` it begins no other verification. -/
structure LastOpened (H : Hash) (s : State) (rest : List Act) (id : Nat) (body : Bytes) (i : Nat) : Prop where
  opens : ∃ pc, s.calls id = some (.put body pc) ∧ pc.verification? = some .opening
  path : s.files.names (.digest (H.hexdigest body)) = some i
  last : ∀ t, (machine H).Visits s rest t → ∀ pc, t.calls id = some (.put body pc) →
    pc.verification? ≠ some .lstat ∧ pc.verification? ≠ some .opening

/-- A moment of that verification. -/
def During (H : Hash) (s : State) (rest : List Act) (id : Nat) (body : Bytes) (t : State) : Prop :=
  (machine H).Visits s rest t ∧ ∃ pc, t.calls id = some (.put body pc) ∧ pc.verification?.isSome = true

/-- What the last verification has seen of the file: that it was regular and as long as the
body, and, each at its time, these bytes. -/
structure Evidence (H : Hash) (s : State) (rest : List Act) (id : Nat) (body : Bytes) (i : Nat) (sized : Prop)
    (data : Bytes) : Prop where
  opened : LastOpened H s rest id body i
  further : rest ≠ []
  size : sized → ∃ t, During H s rest id body t ∧ (t.files.nodes i).kind = .regular ∧
    (t.files.nodes i).content.length = body.length
  bytes : ∀ k < data.length, ∃ t, During H s rest id body t ∧ (t.files.nodes i).content[k]? = data[k]?

/-- `Evidence` of a run: its verification begins somewhere on the way. -/
def Witnessed (H : Hash) (s₀ : State) (actions : List Act) (id : Nat) (body : Bytes) (i : Nat) (sized : Prop)
    (data : Bytes) : Prop :=
  ∃ before rest s, actions = before ++ rest ∧ (machine H).run s₀ before = some s ∧ Evidence H s rest id body i sized data

/-- What a `put` has seen so far. -/
structure Seen (H : Hash) (s₀ : State) (actions : List Act) (id : Nat) (body : Bytes) (pc : PutPc) : Prop where
  fstat : ∀ fd, pc.verification? = some (.fstat fd) → Witnessed H s₀ actions id body fd False []
  reading : ∀ fd seen chunk, pc.verification? = some (.reading fd seen chunk) →
    Witnessed H s₀ actions id body fd True (seen ++ chunk) ∧ seen <+: body
  succeeded : pc.succeeded = true → ∃ i, Witnessed H s₀ actions id body i True body

section Concat
variable {s₀ s s' : State} {actions : List Act} {a : Act} {id : Nat} {body data : Bytes} {i : Nat} {sized : Prop}

theorem During.append {rest more : List Act} {t : State} (h : During H s rest id body t) :
    During H s (rest ++ more) id body t := ⟨h.1.append, h.2⟩

theorem Evidence.concat {rest : List Act} (h : Evidence H s rest id body i sized data)
    (hend : ∀ t, (machine H).run s (rest ++ [a]) = some t → ∀ pc, t.calls id = some (.put body pc) →
      pc.verification? ≠ some .lstat ∧ pc.verification? ≠ some .opening) :
    Evidence H s (rest ++ [a]) id body i sized data where
  opened := by
    refine ⟨h.opened.opens, h.opened.path, fun t ht pc hpc => ?_⟩
    obtain ht | ht := Machine.visits_concat.mp ht
    · exact h.opened.last t ht pc hpc
    · exact hend t ht pc hpc
  further := by simp
  size := fun hsized => by
    obtain ⟨t, ht, hsize⟩ := h.size hsized
    exact ⟨t, ht.append, hsize⟩
  bytes := fun k hk => by
    obtain ⟨t, ht, hbyte⟩ := h.bytes k hk
    exact ⟨t, ht.append, hbyte⟩

/-- One more action, which does not begin a verification of the `put`. -/
theorem Witnessed.concat (h : Witnessed H s₀ actions id body i sized data) (hr : (machine H).run s₀ actions = some s)
    (hstep : step H s a = some s')
    (hend : ∀ pc, s'.calls id = some (.put body pc) → pc.verification? ≠ some .lstat ∧ pc.verification? ≠ some .opening) :
    Witnessed H s₀ (actions ++ [a]) id body i sized data := by
  obtain ⟨before, rest, s₁, rfl, hbefore, hevidence⟩ := h
  refine ⟨before, rest ++ [a], s₁, by simp, hbefore, hevidence.concat fun t ht => ?_⟩
  rw [Machine.run_append, hbefore, Option.bind_some] at hr
  rw [Machine.run_append, hr] at ht
  have hlast : (machine H).step s a = some s' := hstep
  simp only [Option.bind_some, Machine.run, hlast] at ht
  cases ht
  exact hend

/-- What the state of the run shows now is seen. -/
theorem Witnessed.extend (data' : Bytes) (h : Witnessed H s₀ actions id body i sized data)
    (hr : (machine H).run s₀ actions = some s)
    (hnow : ∃ pc, s.calls id = some (.put body pc) ∧ pc.verification?.isSome = true)
    (hsize : (s.files.nodes i).kind = .regular ∧ (s.files.nodes i).content.length = body.length ∨ sized)
    (hbytes : ∀ k < data'.length, data'[k]? = data[k]? ∧ k < data.length ∨ (s.files.nodes i).content[k]? = data'[k]?) :
    Witnessed H s₀ actions id body i True data' := by
  obtain ⟨before, rest, s₁, rfl, hbefore, hevidence⟩ := h
  rw [Machine.run_append, hbefore, Option.bind_some] at hr
  have hduring : During H s₁ rest id body s := ⟨⟨rest, hevidence.further, List.prefix_rfl, hr⟩, hnow⟩
  refine ⟨before, rest, s₁, rfl, hbefore, hevidence.opened, hevidence.further, fun _ => ?_, fun k hk => ?_⟩
  · obtain hnow | hsized := hsize
    · exact ⟨s, hduring, hnow⟩
    · exact hevidence.size hsized
  · obtain ⟨heq, hlt⟩ | hbyte := hbytes k hk
    · obtain ⟨t, ht, hbyte⟩ := hevidence.bytes k hlt
      exact ⟨t, ht, hbyte.trans heq.symm⟩
    · exact ⟨s, hduring, hbyte⟩

end Concat

/-! ### The run -/

theorem Seen.begins {s₀ : State} {actions : List Act} {id : Nat} {body : Bytes} {pc : PutPc}
    (hpc : pc.verification? = none ∨ pc.verification? = some .lstat) (hnot : pc.succeeded = false) :
    Seen H s₀ actions id body pc := by
  refine ⟨fun fd h => ?_, fun fd seen chunk h => ?_, fun h => by simp [hnot] at h⟩
  · obtain hpc | hpc := hpc <;> rw [hpc] at h <;> cases h
  · obtain hpc | hpc := hpc <;> rw [hpc] at h <;> cases h

theorem Seen.of_witnessed {s₀ : State} {actions : List Act} {id : Nat} {body : Bytes} {pc : PutPc} {i : Nat}
    (hpc : pc.verification? = none) (h : Witnessed H s₀ actions id body i True body) :
    Seen H s₀ actions id body pc := by
  refine ⟨fun fd h => ?_, fun fd seen chunk h => ?_, fun _ => ⟨i, h⟩⟩ <;> rw [hpc] at h <;> cases h

/-- Another's step takes nothing away. -/
theorem Seen.concat {s₀ s s' : State} {actions : List Act} {a : Act} {id : Nat} {body : Bytes} {pc : PutPc}
    (h : Seen H s₀ actions id body pc) (hr : (machine H).run s₀ actions = some s) (hstep : step H s a = some s')
    (hcall : s'.calls id = some (.put body pc)) : Seen H s₀ (actions ++ [a]) id body pc := by
  have hsame : ∀ pc', s'.calls id = some (.put body pc') → pc' = pc := by
    intro pc' hpc'
    cases hcall.symm.trans hpc'
    rfl
  refine ⟨fun fd hfd => ?_, fun fd seen chunk hreading => ?_, fun hsucceeded => ?_⟩
  · refine (h.fstat fd hfd).concat hr hstep fun pc' hpc' => ?_
    rw [hsame pc' hpc', hfd]
    simp
  · obtain ⟨hwitnessed, hprefix⟩ := h.reading fd seen chunk hreading
    refine ⟨hwitnessed.concat hr hstep fun pc' hpc' => ?_, hprefix⟩
    rw [hsame pc' hpc', hreading]
    simp
  · obtain ⟨i, hwitnessed⟩ := h.succeeded hsucceeded
    refine ⟨i, hwitnessed.concat hr hstep fun pc' hpc' => ?_⟩
    rw [hsame pc' hpc', PutPc.verification?_of_succeeded hsucceeded]
    simp

/-- One read adds what it shows. -/
theorem append_byte {content shown : Bytes} {n k : Nat} (hk : k < (shown ++ (content.drop shown.length).take n).length) :
    (shown ++ (content.drop shown.length).take n)[k]? = shown[k]? ∧ k < shown.length ∨
      content[k]? = (shown ++ (content.drop shown.length).take n)[k]? := by
  by_cases hlt : k < shown.length
  · exact .inl ⟨List.getElem?_append_left hlt, hlt⟩
  · right
    simp only [List.length_append, List.length_take, List.length_drop] at hk
    rw [List.getElem?_append_right (Nat.not_lt.mp hlt), List.getElem?_take_of_lt (by omega), List.getElem?_drop]
    congr 1
    omega

/-- The own step of a `put`. -/
theorem Seen.putStep {s₀ s : State} {actions : List Act} {a : Answer} {id : Nat} {body : Bytes} {pc pc' : PutPc}
    {f : Files} (h : Seen H s₀ actions id body pc) (hr : (machine H).run s₀ actions = some s)
    (hcall : s.calls id = some (.put body pc)) (hput : putStep H s.files body a pc = some (pc', f))
    (hstep : step H s (.step id a) = some ({s with files := f}.setCall id (.put body pc'))) :
    Seen H s₀ (actions ++ [.step id a]) id body pc' := by
  have hsame : ∀ pc₁, ({s with files := f}.setCall id (.put body pc')).calls id = some (.put body pc₁) → pc₁ = pc' := by
    intro pc₁ hpc₁
    rw [State.calls_setCall, if_pos rfl] at hpc₁
    cases hpc₁
    rfl
  obtain ⟨hbegins, hnot⟩ | ⟨v, v', hv, hverify, hv', hnot⟩ | ⟨v, hv, hverify, hnone⟩ | ⟨hsucceeded, hnone⟩ :=
    putStep_verification hput
  · exact .begins hbegins hnot
  · cases v with
    | lstat =>
      obtain ⟨e, he⟩ | ⟨he, -⟩ | ⟨he, -⟩ := verifyExisting_lstat hverify
      · cases he
      · cases he
      · cases he
        refine ⟨fun fd h => ?_, fun fd seen chunk h => ?_, fun h => by simp [hnot] at h⟩ <;> rw [hv'] at h <;> cases h
    | opening =>
      obtain ⟨e, he⟩ | ⟨he, -⟩ | ⟨i, he, hpath⟩ := verifyExisting_opening hverify
      · cases he
      · cases he
      · cases he
        refine ⟨fun fd hfd => ?_, fun fd seen chunk h => ?_, fun h => by simp [hnot] at h⟩
        · cases hv'.symm.trans hfd
          refine ⟨actions, [.step id a], s, rfl, hr, ⟨⟨pc, hcall, hv⟩, hpath, fun t ht pc₁ hpc₁ => ?_⟩, by simp,
            False.elim, fun k hk => absurd hk (Nat.not_lt_zero k)⟩
          obtain ⟨passed, hne, hprefix, hrun⟩ := ht
          obtain rfl : passed = [.step id a] := (List.prefix_cons_iff.mp hprefix).elim (absurd · hne) fun ⟨t, ht, hnil⟩ => by
            rw [ht, List.prefix_nil.mp hnil]
          have hone : (machine H).step s (.step id a) = some ({s with files := f}.setCall id (.put body pc')) := hstep
          simp only [Machine.run, hone, Option.bind_some, Option.some.injEq] at hrun
          subst hrun
          rw [hsame pc₁ hpc₁, hv']
          simp
        · rw [hv'] at h
          cases h
    | fstat fd =>
      obtain ⟨e, he⟩ | ⟨he, hregular, hlength⟩ := verifyExisting_fstat hverify
      · cases he
      · cases he
        refine ⟨fun fd h => ?_, fun fd' seen chunk hreading => ?_, fun h => by simp [hnot] at h⟩
        · rw [hv'] at h
          cases h
        · cases hv'.symm.trans hreading
          refine ⟨?_, List.nil_prefix⟩
          have hsized := (h.fstat fd hv).extend [] hr ⟨pc, hcall, by simp [hv]⟩ (.inl ⟨hregular, hlength⟩)
            (fun k hk => absurd hk (Nat.not_lt_zero k))
          refine hsized.concat hr hstep fun pc₁ hpc₁ => ?_
          rw [hsame pc₁ hpc₁, hv']
          simp
    | reading fd seen chunk =>
      obtain ⟨hwitnessed, hprefix⟩ := h.reading fd seen chunk hv
      have hnow : ∃ pc, s.calls id = some (.put body pc) ∧ pc.verification?.isSome = true := ⟨pc, hcall, by simp [hv]⟩
      obtain ⟨e, he⟩ | ⟨n, hcases⟩ := verifyExisting_reading hverify
      · cases he
      · -- Either way the bytes read are those seen before and what this read shows.
        have hextended : Witnessed H s₀ (actions ++ [.step id a]) id body fd True
            ((seen ++ chunk) ++ ((s.files.nodes fd).content.drop (seen ++ chunk).length).take n) := by
          refine (hwitnessed.extend _ hr hnow (.inr trivial) fun k hk => append_byte hk).concat hr hstep fun pc₁ hpc₁ => ?_
          rw [hsame pc₁ hpc₁, hv']
          obtain he | ⟨whole, -, he, -⟩ | ⟨he, -⟩ := hcases <;> cases he <;> simp
        rw [List.length_append, List.append_assoc] at hextended
        refine ⟨fun fd h => ?_, fun fd' seen' chunk' hreading => ?_, fun h => by simp [hnot] at h⟩
        · rw [hv'] at h
          obtain he | ⟨whole, -, he, -⟩ | ⟨he, -⟩ := hcases <;> cases he <;> cases h
        · cases hv'.symm.trans hreading
          obtain he | ⟨whole, hwhole, he, hbody⟩ | ⟨he, -⟩ := hcases
          · cases he
            exact ⟨hextended, hprefix⟩
          · cases he
            rw [List.append_nil]
            refine ⟨hwhole ▸ hextended, ?_⟩
            obtain ⟨rest, rfl⟩ := hprefix
            rw [List.drop_left] at hbody
            exact (List.prefix_append_right_inj seen).mpr (hbody ▸ List.take_prefix _ _)
          · cases he
  · cases v with
    | lstat =>
      obtain ⟨e, he⟩ | ⟨he, -⟩ | ⟨he, -⟩ := verifyExisting_lstat hverify <;> cases he
    | opening =>
      obtain ⟨e, he⟩ | ⟨he, -⟩ | ⟨i, he, -⟩ := verifyExisting_opening hverify <;> cases he
    | fstat fd =>
      obtain ⟨e, he⟩ | ⟨he, -⟩ := verifyExisting_fstat hverify <;> cases he
    | reading fd seen chunk =>
      obtain ⟨e, he⟩ | ⟨n, he | ⟨whole, -, he, -⟩ | ⟨-, hchunk, hlength, -⟩⟩ := verifyExisting_reading hverify
      · cases he
      · cases he
      · cases he
      · obtain ⟨hwitnessed, hprefix⟩ := h.reading fd seen chunk hv
        rw [hchunk, List.append_nil, hprefix.eq_of_length hlength] at hwitnessed
        refine .of_witnessed hnone (hwitnessed.concat hr hstep fun pc₁ hpc₁ => ?_)
        rw [hsame pc₁ hpc₁, hnone]
        simp
  · obtain ⟨i, hwitnessed⟩ := h.succeeded hsucceeded
    refine .of_witnessed hnone (hwitnessed.concat hr hstep fun pc₁ hpc₁ => ?_)
    rw [hsame pc₁ hpc₁, hnone]
    simp

/-- **In every run**, every `put` has the evidence of its last verification. -/
theorem run_seen {s₀ s : State} {actions : List Act} (hs : Begins s₀) (hr : (machine H).run s₀ actions = some s)
    (id : Nat) (body : Bytes) (pc : PutPc) (hcall : s.calls id = some (.put body pc)) :
    Seen H s₀ actions id body pc := by
  have hseen : ∀ id body pc, s.calls id = some (.put body pc) → Seen H s₀ actions id body pc := by
    refine Machine.run_history (m := machine H) (I := fun actions s =>
      ∀ id body pc, s.calls id = some (.put body pc) → Seen H s₀ actions id body pc) ?_ ?_ hr
    · intro id body pc hcall
      rw [hs.quiet] at hcall
      cases hcall
    · intro actions s a s' hr h hstep id body pc hcall
      obtain hsame | ⟨-, rfl⟩ | ⟨answer, pc₀, f, rfl, hcall₀, hput, rfl⟩ := (step_moved hstep).put_call hcall
      · exact (h id body pc hsame).concat hr hstep hcall
      · exact .begins (.inl rfl) rfl
      · exact (h id body pc₀ hcall₀).putStep hr hcall₀ hput hstep
  exact hseen id body pc hcall

/-! ### What was verified -/

/-- The whole body was read in one verification, after which no other was begun; a file that
nobody changed in place meanwhile held it when the digest path was opened. -/
def Verified (H : Hash) (s₀ : State) (actions : List Act) (id : Nat) (body : Bytes) : Prop :=
  ∃ before rest s i, actions = before ++ rest ∧ (machine H).run s₀ before = some s ∧
    Evidence H s rest id body i True body ∧
    ((∀ t, During H s rest id body t → t.files.nodes i = s.files.nodes i) →
      s.files.Holds (.digest (H.hexdigest body)) body)

theorem Evidence.holds {s : State} {rest : List Act} {id : Nat} {body : Bytes} {i : Nat}
    (h : Evidence H s rest id body i True body)
    (hsame : ∀ t, During H s rest id body t → t.files.nodes i = s.files.nodes i) :
    s.files.Holds (.digest (H.hexdigest body)) body := by
  obtain ⟨t, ht, hkind, hlength⟩ := h.size trivial
  rw [hsame t ht] at hkind hlength
  refine ⟨i, h.opened.path, hkind, List.ext_getElem? fun k => ?_⟩
  by_cases hk : k < body.length
  · obtain ⟨t, ht, hbyte⟩ := h.bytes k hk
    rwa [hsame t ht] at hbyte
  · rw [List.getElem?_eq_none (by omega), List.getElem?_eq_none (by omega)]

theorem put_verified {s₀ s : State} {actions : List Act} (hs : Begins s₀) (hr : (machine H).run s₀ actions = some s)
    {id : Nat} {body : Bytes} {t : Option Temporary} {r : Stored}
    (hcall : s.calls id = some (.put body (.finished t (.ok r)))) : Verified H s₀ actions id body := by
  obtain ⟨i, before, rest, s₁, hsplit, hbefore, h⟩ := (run_seen hs hr id body _ hcall).succeeded rfl
  exact ⟨before, rest, s₁, i, hsplit, hbefore, h, h.holds⟩

/-! ### A body that never was at its digest path -/

/-- SHA-256 of the letter a; other bodies do not occur. -/
def sampleHash : Hash where
  hexdigest := fun body =>
    if body = [97] then "ca978112ca1bbdcafac231b39a23dc4da786eff8147c4e72b9807785afee48bb"
    else "0000000000000000000000000000000000000000000000000000000000000000"
  isDigest_hexdigest := by
    intro body
    split <;> decide +kernel

/-- An empty directory. -/
def emptyRoot : State where
  files := {names := fun _ => none, nodes := fun _ => ⟨.regular, (0, 0), []⟩, next := 0, handedOut := []}
  calls := fun _ => none

def sampleTarget : Path := .digest (sampleHash.hexdigest [97])

def sampleTemporary : Path := .temporary "ca97" 0

/-- The temporary file is replaced before it is linked, by one that is longer; the path is
gone, and the other name of the file truncated, between `open` and `fstat`. -/
def disturbedPut : List Act :=
  [.put 0 [97], .step 0 {}, .step 0 {}, .step 0 {}, .step 0 {}, .step 0 {},
    .replace sampleTemporary ⟨.regular, (0, 1), [97, 98]⟩,
    .step 0 {}, .step 0 {}, .step 0 {},
    .delete sampleTarget, .truncate sampleTemporary 1,
    .step 0 {}, .step 0 {}, .step 0 {}, .step 0 {}, .step 0 {}, .step 0 {}]

instance (f : Files) (p : Path) (content : Bytes) : Decidable (f.Holds p content) :=
  match h : f.names p with
  | none => isFalse fun ⟨_, hi, _⟩ => by rw [h] at hi; cases hi
  | some i => decidable_of_iff ((f.nodes i).kind = .regular ∧ (f.nodes i).content = content)
      ⟨fun hi => ⟨i, h, hi⟩, fun ⟨j, hj, hi⟩ => by rw [h] at hj; cases hj; exact hi⟩

/-- **The put returns, and at no moment of the run did the digest path hold the body.** -/
theorem unheld_body_stored :
    (∃ s t, (machine sampleHash).run emptyRoot disturbedPut = some s ∧
      s.calls 0 = some (.put [97] (.finished (some t) (.ok (stored sampleHash [97]))))) ∧
    ∀ passed ∈ disturbedPut.inits, ∀ s ∈ (machine sampleHash).run emptyRoot passed,
      ¬ s.files.Holds sampleTarget [97] := by
  refine ⟨⟨_, ⟨sampleTemporary, 0⟩, rfl, by decide +kernel⟩, ?_⟩
  decide +kernel

end Fetech.Storage
