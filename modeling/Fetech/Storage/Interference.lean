import Fetech.Storage
import Mathlib.Tactic.Common

/-! What the store keeps whatever is done to its files.

`Owned` says what others can do to the temporary file of a `put`: the node it
created has no name but the one `mkstemp` gave out, and digest paths once it is
linked; a node that is put in its place from outside is another node. So a `put`
writes to no file that stands at a digest path, and unlinks what it created. -/
namespace Fetech.Storage
open Lib

/-! ### Files -/

namespace Files
variable (f : Files) (p q : Path) (i j : Nat)

@[simp] theorem names_create (node : Node) :
    (f.create p node).names q = if q = p then some f.next else f.names q := by
  simp [create, Function.update_apply]

@[simp] theorem nodes_create (node : Node) :
    (f.create p node).nodes i = if i = f.next then node else f.nodes i := by
  simp [create, Function.update_apply]

@[simp] theorem names_link : (f.link p i).names q = if q = p then some i else f.names q := by
  simp [link, Function.update_apply]

@[simp] theorem names_unlink : (f.unlink p).names q = if q = p then none else f.names q := by
  simp [unlink, Function.update_apply]

@[simp] theorem names_rewrite (content : Bytes) : (f.rewrite i content).names = f.names := rfl

@[simp] theorem nodes_rewrite (content : Bytes) :
    (f.rewrite i content).nodes j = if j = i then {f.nodes i with content} else f.nodes j := by
  simp [rewrite, Function.update_apply]

theorem kind_rewrite (content : Bytes) : ((f.rewrite i content).nodes j).kind = (f.nodes j).kind := by
  rw [nodes_rewrite]
  split <;> simp_all

end Files

/-! ### What a step of `put` does -/

def PutPc.temporary? : PutPc → Option Temporary
  | .entering | .checking _ | .staging => none
  | .writing t _ | .linking t _ | .confirming t _ _ | .cleaning t _ => some t
  | .securing t | .finished t _ => t

def PutPc.isWriting : PutPc → Bool
  | .writing .. => true
  | _ => false

/-- After the `finally` block. -/
def PutPc.hasCleaned : PutPc → Bool
  | .finished (some _) _ => true
  | _ => false

variable (H : Hash)

/-- All that a step of `put` can do to the files, and to its hold on them. -/
inductive PutEffect (f : Files) (body : Bytes) (pc : PutPc) : PutPc → Files → Prop
  | quiet {pc' : PutPc} (htemp : pc'.temporary? = pc.temporary?) (hwriting : pc'.isWriting = false)
      (hcleaned : pc'.hasCleaned = false) : PutEffect f body pc pc' f
  | created (suffix : Nat) (inode : Nat × Nat) (hpc : pc = .staging)
      (hfree : f.names (.temporary (parent (H.hexdigest body)) suffix) = none)
      (hunused : .temporary (parent (H.hexdigest body)) suffix ∉ f.handedOut) :
      PutEffect f body pc (.writing ⟨.temporary (parent (H.hexdigest body)) suffix, f.next⟩ 0)
        {f.create (.temporary (parent (H.hexdigest body)) suffix) ⟨.regular, inode, []⟩ with
          handedOut := .temporary (parent (H.hexdigest body)) suffix :: f.handedOut}
  | wrote (t : Temporary) (written amount : Nat) (hpc : pc = .writing t written) (hmore : written < body.length) :
      PutEffect f body pc (.writing t (written + ((body.drop written).take (max 1 amount)).length))
        (f.rewrite t.fd (pwrite (f.nodes t.fd).content written ((body.drop written).take (max 1 amount))))
  | linked (t : Temporary) (attempt i : Nat) (hpc : pc = .linking t attempt) (hname : f.names t.name = some i)
      (hfree : f.names (.digest (H.hexdigest body)) = none) :
      PutEffect f body pc (.confirming t none .lstat) (f.link (.digest (H.hexdigest body)) i)
  | cleaned (t : Temporary) (outcome : Except StorageError Stored) (hpc : pc = .cleaning t outcome) :
      PutEffect f body pc (.finished (some t) outcome) (f.unlink t.name)
  /-- There is nothing to unlink, or a directory. -/
  | refused (t : Temporary) (outcome outcome' : Except StorageError Stored) (hpc : pc = .cleaning t outcome)
      (hname : ∀ i, f.names t.name = some i → (f.nodes i).kind = .directory) :
      PutEffect f body pc (.finished (some t) outcome') f

variable {H}

/-- **The inversion lemma** of `putStep`. -/
theorem putStep_effect {f f' : Files} {body : Bytes} {a : Answer} {pc pc' : PutPc}
    (h : putStep H f body a pc = some (pc', f')) : PutEffect H f body pc pc' f' := by
  cases pc with
  | entering =>
    cases h
    cases a.fails <;> exact .quiet rfl rfl rfl
  | checking v =>
    simp only [putStep] at h
    split at h <;> cases h <;> exact .quiet rfl rfl rfl
  | staging =>
    simp only [putStep] at h
    split at h
    · cases h
      exact .quiet rfl rfl rfl
    · split at h
      · rename_i hname
        cases h
        exact .created a.suffix a.inode rfl hname.1 hname.2
      · cases h
  | writing t written =>
    simp only [putStep] at h
    split at h
    · cases h
      exact .quiet rfl rfl rfl
    · split at h
      · rename_i hmore
        cases h
        exact .wrote t written a.amount rfl hmore
      · cases h
        exact .quiet rfl rfl rfl
  | linking t attempt =>
    simp only [putStep, linkTarget] at h
    split at h
    · cases h
      exact .quiet rfl rfl rfl
    · cases hname : f.names t.name with
      | none =>
        simp only [hname] at h
        cases h
        exact .quiet rfl rfl rfl
      | some i =>
        cases htarget : f.names (.digest (H.hexdigest body)) with
        | some j =>
          simp only [hname, htarget] at h
          cases h
          exact .quiet rfl rfl rfl
        | none =>
          simp only [hname, htarget] at h
          split at h
          · cases h
            exact .quiet rfl rfl rfl
          · cases h
            exact .linked t attempt i rfl hname htarget
  | confirming t occupied v =>
    simp only [putStep] at h
    split at h
    · cases h
      exact .quiet rfl rfl rfl
    · cases h
      exact .quiet rfl rfl rfl
    · split at h
      · cases h
        exact .quiet rfl rfl rfl
      · cases h
        unfold nextAttempt
        split <;> exact .quiet rfl rfl rfl
    · cases h
      exact .quiet rfl rfl rfl
  | securing t =>
    cases t with
    | none =>
      cases h
      exact .quiet rfl rfl rfl
    | some t =>
      cases h
      exact .quiet rfl rfl rfl
  | cleaning t outcome =>
    cases hname : f.names t.name with
    | none =>
      simp only [putStep, unlinkTemporary, hname] at h
      cases h
      exact .refused t outcome outcome rfl (by simp [hname])
    | some i =>
      simp only [putStep, unlinkTemporary, hname] at h
      split at h
      · rename_i hkind
        cases h
        exact .refused t outcome _ rfl (by simp [hname, hkind])
      · cases h
        exact .cleaned t outcome rfl
  | finished t outcome => cases h

/-! ### Who has which file -/

/-- A `put` that has created a temporary file. -/
def State.Stages (s : State) (id : Nat) (pc : PutPc) (t : Temporary) : Prop :=
  ∃ body, s.calls id = some (.put body pc) ∧ pc.temporary? = some t

/-- The hold of each `put` on the file it created. -/
structure Owned (s : State) : Prop where
  used : ∀ p i, s.files.names p = some i → i < s.files.next
  name : ∀ id pc t, s.Stages id pc t → (∃ directory suffix, t.name = .temporary directory suffix) ∧
    t.name ∈ s.files.handedOut
  node : ∀ id pc t, s.Stages id pc t → t.fd < s.files.next ∧ (s.files.nodes t.fd).kind = .regular
  apart : ∀ id id' pc pc' t t', s.Stages id pc t → s.Stages id' pc' t' → t.name = t'.name → id = id'
  /-- A file that is still written is at no digest path. -/
  named : ∀ id pc t, s.Stages id pc t → ∀ p, s.files.names p = some t.fd →
    p = t.name ∨ (pc.isWriting = false ∧ ∃ digest, p = .digest digest)
  gone : ∀ id t outcome, s.Stages id (.finished (some t) outcome) t → s.files.names t.name ≠ some t.fd

theorem Owned.begins {s : State} (h : Begins s) : Owned s := by
  have hnone : ∀ id pc t, ¬ s.Stages id pc t := by
    intro id pc t hstages
    obtain ⟨body, hcall, -⟩ := hstages
    rw [h.quiet] at hcall
    cases hcall
  exact ⟨h.used, fun id pc t hs => absurd hs (hnone id pc t), fun id pc t hs => absurd hs (hnone id pc t),
    fun id _ pc _ t _ hs => absurd hs (hnone id pc t), fun id pc t hs => absurd hs (hnone id pc t),
    fun id t outcome hs => absurd hs (hnone id _ t)⟩

/-- The files change so that only new nodes get new names, and no node its kind. -/
structure Fresh (f f' : Files) : Prop where
  later : f.next ≤ f'.next
  used : ∀ p i, f'.names p = some i → i < f'.next
  names : ∀ p i, i < f.next → f'.names p = some i → f.names p = some i
  kind : ∀ i, i < f.next → (f'.nodes i).kind = (f.nodes i).kind
  handedOut : f.handedOut ⊆ f'.handedOut

section Fresh
variable {f : Files} (hused : ∀ p i, f.names p = some i → i < f.next)
include hused

theorem fresh_create (p : Path) (node : Node) : Fresh f (f.create p node) where
  later := Nat.le_succ _
  used := by
    intro q i hq
    rw [Files.names_create] at hq
    split at hq
    · cases hq
      exact Nat.lt_succ_self _
    · exact Nat.lt_succ_of_lt (hused q i hq)
  names := by
    intro q i hi hq
    rw [Files.names_create] at hq
    split at hq
    · cases hq
      exact absurd hi (Nat.lt_irrefl _)
    · exact hq
  kind := by
    intro i hi
    rw [Files.nodes_create, if_neg (Nat.ne_of_lt hi)]
  handedOut := List.Subset.refl _

theorem fresh_unlink (p : Path) : Fresh f (f.unlink p) where
  later := Nat.le_refl _
  used := by
    intro q i hq
    rw [Files.names_unlink] at hq
    split at hq
    · cases hq
    · exact hused q i hq
  names := by
    intro q i _ hq
    rw [Files.names_unlink] at hq
    split at hq
    · cases hq
    · exact hq
  kind := fun _ _ => rfl
  handedOut := List.Subset.refl _

theorem fresh_rewrite (i : Nat) (content : Bytes) : Fresh f (f.rewrite i content) where
  later := Nat.le_refl _
  used := hused
  names := fun _ _ _ h => h
  kind := fun j _ => f.kind_rewrite i j content
  handedOut := List.Subset.refl _

end Fresh

/-- What others do to the files leaves every hold as it is. -/
theorem Owned.fresh {s : State} (h : Owned s) {f : Files} (hf : Fresh s.files f) : Owned {s with files := f} where
  used := hf.used
  name := fun id pc t hs => ⟨(h.name id pc t hs).1, hf.handedOut (h.name id pc t hs).2⟩
  node := by
    intro id pc t hs
    obtain ⟨hlt, hkind⟩ := h.node id pc t hs
    exact ⟨Nat.lt_of_lt_of_le hlt hf.later, (hf.kind t.fd hlt).trans hkind⟩
  apart := h.apart
  named := fun id pc t hs p hp => h.named id pc t hs p (hf.names p t.fd (h.node id pc t hs).1 hp)
  gone := fun id t outcome hs hname => h.gone id t outcome hs (hf.names _ _ (h.node id _ t hs).1 hname)

theorem State.calls_setCall (s : State) (id : Nat) (c : Call) (id' : Nat) :
    (s.setCall id c).calls id' = if id' = id then some c else s.calls id' := by
  simp [State.setCall, Function.update_apply]

/-- A call goes on with the temporary file it had, or has none. -/
theorem Owned.setCall {s : State} (h : Owned s) {id : Nat} {c : Call}
    (hkept : ∀ body pc t, c = .put body pc → pc.temporary? = some t →
      ∃ pc₀, s.Stages id pc₀ t ∧ (pc.isWriting = true → pc₀.isWriting = true))
    (hgone : ∀ body t outcome, c = .put body (.finished (some t) outcome) → s.files.names t.name ≠ some t.fd) :
    Owned (s.setCall id c) := by
  have hstages : ∀ id' pc t, (s.setCall id c).Stages id' pc t →
      ∃ pc₀, s.Stages id' pc₀ t ∧ (pc.isWriting = true → pc₀.isWriting = true) := by
    intro id' pc t hs
    obtain ⟨body, hcall, htemp⟩ := hs
    rw [State.calls_setCall] at hcall
    split at hcall
    · rename_i heq
      subst heq
      cases hcall
      exact hkept body pc t rfl htemp
    · exact ⟨pc, ⟨body, hcall, htemp⟩, fun h => h⟩
  refine ⟨h.used, ?_, ?_, ?_, ?_, ?_⟩
  · intro id' pc t hs
    obtain ⟨pc₀, hs₀, -⟩ := hstages id' pc t hs
    exact h.name id' pc₀ t hs₀
  · intro id' pc t hs
    obtain ⟨pc₀, hs₀, -⟩ := hstages id' pc t hs
    exact h.node id' pc₀ t hs₀
  · intro id₁ id₂ pc₁ pc₂ t₁ t₂ hs₁ hs₂ heq
    obtain ⟨pc₁, hs₁, -⟩ := hstages id₁ pc₁ t₁ hs₁
    obtain ⟨pc₂, hs₂, -⟩ := hstages id₂ pc₂ t₂ hs₂
    exact h.apart id₁ id₂ pc₁ pc₂ t₁ t₂ hs₁ hs₂ heq
  · intro id' pc t hs p hp
    obtain ⟨pc₀, hs₀, hwriting⟩ := hstages id' pc t hs
    refine (h.named id' pc₀ t hs₀ p hp).imp_right fun hlinked => ⟨?_, hlinked.2⟩
    by_contra hpc
    rw [hwriting (by simpa using hpc)] at hlinked
    exact absurd hlinked.1 (by decide)
  · intro id' t outcome hs
    obtain ⟨body, hcall, htemp⟩ := hs
    rw [State.calls_setCall] at hcall
    split at hcall
    · cases hcall
      exact hgone body t outcome rfl
    · exact h.gone id' t outcome ⟨body, hcall, htemp⟩

/-- The name of a finished temporary file becomes a digest path's. -/
theorem Owned.link {s : State} (h : Owned s) {id : Nat} {pc : PutPc} {t : Temporary} (hs : s.Stages id pc t)
    (hpc : pc.isWriting = false) {i : Nat} (hi : s.files.names t.name = some i) (digest : String) :
    Owned {s with files := s.files.link (.digest digest) i} := by
  have hne : ∀ id' pc' t', s.Stages id' pc' t' → t'.name ≠ .digest digest := by
    intro id' pc' t' hs' heq
    obtain ⟨directory, suffix, hname⟩ := (h.name id' pc' t' hs').1
    rw [heq] at hname
    cases hname
  refine ⟨?_, h.name, h.node, h.apart, ?_, ?_⟩
  · intro p j hp
    rw [Files.names_link] at hp
    split at hp
    · cases hp
      exact h.used _ _ hi
    · exact h.used p j hp
  · intro id' pc' t' hs' p hp
    rw [Files.names_link] at hp
    split at hp
    · rename_i heq
      cases hp
      refine .inr ⟨?_, digest, heq⟩
      -- The name that is linked is this put's own.
      obtain hname | ⟨-, d, hname⟩ := h.named id' pc' t' hs' t.name hi
      · obtain rfl := h.apart id id' pc pc' t t' hs hs' hname
        obtain ⟨body, hcall, -⟩ := hs
        obtain ⟨body', hcall', -⟩ := hs'
        cases hcall.symm.trans hcall'
        exact hpc
      · obtain ⟨directory, suffix, htemp⟩ := (h.name id pc t hs).1
        rw [hname] at htemp
        cases htemp
    · exact h.named id' pc' t' hs' p hp
  · intro id' t' outcome hs'
    rw [Files.names_link, if_neg (hne id' _ t' hs')]
    exact h.gone id' t' outcome hs'

/-- `mkstemp` gives out a new name for a new node. -/
theorem Owned.create {s : State} (h : Owned s) {id : Nat} (body : Bytes) (inode : Nat × Nat) {directory : String}
    {suffix : Nat} (hunused : .temporary directory suffix ∉ s.files.handedOut) :
    Owned ({s with files := {s.files.create (.temporary directory suffix) ⟨.regular, inode, []⟩ with
      handedOut := .temporary directory suffix :: s.files.handedOut}}.setCall id
        (.put body (.writing ⟨.temporary directory suffix, s.files.next⟩ 0))) := by
  have hcreate := fresh_create h.used (.temporary directory suffix) ⟨.regular, inode, []⟩
  have hfresh : Fresh s.files {s.files.create (.temporary directory suffix) ⟨.regular, inode, []⟩ with
      handedOut := .temporary directory suffix :: s.files.handedOut} :=
    ⟨hcreate.later, hcreate.used, hcreate.names, hcreate.kind, List.subset_cons_self _ _⟩
  have h' := h.fresh hfresh
  have hstages : ∀ id' pc t, State.Stages (State.setCall {s with files := {s.files.create
      (.temporary directory suffix) ⟨.regular, inode, []⟩ with
        handedOut := .temporary directory suffix :: s.files.handedOut}} id
        (.put body (.writing ⟨.temporary directory suffix, s.files.next⟩ 0))) id' pc t →
      (id' = id ∧ t = ⟨.temporary directory suffix, s.files.next⟩ ∧ pc = .writing t 0) ∨ s.Stages id' pc t := by
    intro id' pc t hs
    obtain ⟨body', hcall, htemp⟩ := hs
    rw [State.calls_setCall] at hcall
    split at hcall
    · cases hcall
      cases htemp
      exact .inl ⟨‹_›, rfl, rfl⟩
    · exact .inr ⟨body', hcall, htemp⟩
  refine ⟨h'.used, ?_, ?_, ?_, ?_, ?_⟩
  · intro id' pc t hs
    obtain ⟨-, rfl, -⟩ | hs := hstages id' pc t hs
    · exact ⟨⟨directory, suffix, rfl⟩, List.mem_cons_self ..⟩
    · exact h'.name id' pc t hs
  · intro id' pc t hs
    obtain ⟨-, rfl, -⟩ | hs := hstages id' pc t hs
    · exact ⟨Nat.lt_succ_self _, by simp [State.setCall]⟩
    · exact h'.node id' pc t hs
  · intro id₁ id₂ pc₁ pc₂ t₁ t₂ hs₁ hs₂ heq
    obtain ⟨rfl, rfl, -⟩ | hs₁ := hstages id₁ pc₁ t₁ hs₁
    · obtain ⟨rfl, -, -⟩ | hs₂ := hstages id₂ pc₂ t₂ hs₂
      · rfl
      · have hname := (h.name id₂ pc₂ t₂ hs₂).2
        rw [← heq] at hname
        exact absurd hname hunused
    · obtain ⟨-, rfl, -⟩ | hs₂ := hstages id₂ pc₂ t₂ hs₂
      · have hname := (h.name id₁ pc₁ t₁ hs₁).2
        rw [heq] at hname
        exact absurd hname hunused
      · exact h.apart id₁ id₂ pc₁ pc₂ t₁ t₂ hs₁ hs₂ heq
  · intro id' pc t hs p hp
    obtain ⟨-, rfl, -⟩ | hs := hstages id' pc t hs
    · left
      by_contra hne
      have hold : s.files.names p = some s.files.next := by simpa [State.setCall, hne] using hp
      exact absurd (h.used p _ hold) (Nat.lt_irrefl _)
    · exact h'.named id' pc t hs p hp
  · intro id' t outcome hs
    obtain ⟨-, rfl, hpc⟩ | hs := hstages id' _ t hs
    · cases hpc
    · exact h'.gone id' t outcome hs

/-- A step of `put` leaves every hold as it is, its own included. -/
theorem Owned.putStep {s : State} (h : Owned s) {id : Nat} {body : Bytes} {pc pc' : PutPc} {f : Files}
    (hcall : s.calls id = some (.put body pc)) (heffect : PutEffect H s.files body pc pc' f) :
    Owned ({s with files := f}.setCall id (.put body pc')) := by
  cases heffect with
  | quiet htemp hwriting hcleaned =>
    apply h.setCall
    · intro body' pc₁ t heq htemp₁
      cases heq
      exact ⟨pc, ⟨body, hcall, htemp ▸ htemp₁⟩, by simp [hwriting]⟩
    · intro body' t outcome heq
      cases heq
      cases hcleaned
  | created suffix inode hpc hfree hunused => exact h.create body inode hunused
  | wrote t written amount hpc hmore =>
    subst hpc
    apply (h.fresh (fresh_rewrite h.used t.fd _)).setCall
    · intro body' pc₁ t₁ heq htemp₁
      cases heq
      exact ⟨_, ⟨body, hcall, htemp₁⟩, fun _ => rfl⟩
    · intro body' t₁ outcome heq
      cases heq
  | linked t attempt i hpc hname hfree =>
    subst hpc
    apply (h.link ⟨body, hcall, rfl⟩ rfl hname (H.hexdigest body)).setCall
    · intro body' pc₁ t₁ heq htemp₁
      cases heq
      exact ⟨_, ⟨body, hcall, htemp₁⟩, by simp [PutPc.isWriting]⟩
    · intro body' t₁ outcome heq
      cases heq
  | cleaned t outcome hpc =>
    subst hpc
    apply (h.fresh (fresh_unlink h.used t.name)).setCall
    · intro body' pc₁ t₁ heq htemp₁
      cases heq
      exact ⟨_, ⟨body, hcall, htemp₁⟩, by simp [PutPc.isWriting]⟩
    · intro body' t₁ outcome₁ heq
      cases heq
      simp
  | refused t outcome outcome' hpc hname =>
    subst hpc
    apply h.setCall
    · intro body' pc₁ t₁ heq htemp₁
      cases heq
      exact ⟨_, ⟨body, hcall, htemp₁⟩, by simp [PutPc.isWriting]⟩
    · intro body' t₁ outcome₁ heq hown
      cases heq
      have hregular := (h.node id _ t ⟨body, hcall, rfl⟩).2
      rw [hname t.fd hown] at hregular
      cases hregular

/-- A call that is no `put` has no hold on anything. -/
theorem Owned.setGet {s : State} (h : Owned s) {id : Nat} (uri : String) (maximumBytes : Option Int) (pc : GetPc) :
    Owned (s.setCall id (.get uri maximumBytes pc)) :=
  h.setCall (fun _ _ _ heq => by cases heq) (fun _ _ _ heq => by cases heq)

theorem fresh_changeInPlace {f f' : Files} (hused : ∀ p i, f.names p = some i → i < f.next) {p : Path}
    {change : Bytes → Bytes} (h : changeInPlace f p change = some f') : Fresh f f' := by
  unfold changeInPlace at h
  split at h
  · cases h
  · split at h
    · cases h
      exact fresh_rewrite hused _ _
    · cases h

/-- All that a step can be. -/
inductive Moved (H : Hash) (s : State) : Act → State → Prop
  | put {id : Nat} {body : Bytes} (hfree : s.calls id = none) :
      Moved H s (.put id body) (s.setCall id (.put body .entering))
  | get {id : Nat} {uri : String} {maximumBytes : Option Int} (hfree : s.calls id = none) :
      Moved H s (.get id uri maximumBytes) (s.setCall id (.get uri maximumBytes (getStart uri maximumBytes)))
  | putStep {id : Nat} {a : Answer} {body : Bytes} {pc pc' : PutPc} {f : Files}
      (hcall : s.calls id = some (.put body pc)) (hput : putStep H s.files body a pc = some (pc', f)) :
      Moved H s (.step id a) ({s with files := f}.setCall id (.put body pc'))
  | getStep {id : Nat} {a : Answer} {uri : String} {maximumBytes : Option Int} {pc pc' : GetPc}
      (hcall : s.calls id = some (.get uri maximumBytes pc))
      (hget : getStep H s.files maximumBytes a pc = some pc') :
      Moved H s (.step id a) (s.setCall id (.get uri maximumBytes pc'))
  | outside {a : Act} {f : Files} (houtside : a.outside = true)
      (hfresh : (∀ p i, s.files.names p = some i → i < s.files.next) → Fresh s.files f) :
      Moved H s a {s with files := f}

theorem step_moved {s s' : State} {a : Act} (hstep : step H s a = some s') : Moved H s a s' := by
  cases a with
  | put id body =>
    simp only [step] at hstep
    split at hstep <;> cases hstep
    exact .put ‹_›
  | get id uri maximumBytes =>
    simp only [step] at hstep
    split at hstep <;> cases hstep
    exact .get ‹_›
  | step id a =>
    cases hcall : s.calls id with
    | none => simp [step, hcall] at hstep
    | some c =>
      cases c with
      | put body pc =>
        simp only [step, hcall, Option.map_eq_some_iff, Prod.exists] at hstep
        obtain ⟨pc', f, hput, rfl⟩ := hstep
        exact .putStep hcall hput
      | get uri maximumBytes pc =>
        simp only [step, hcall, Option.map_eq_some_iff] at hstep
        obtain ⟨pc', hget, rfl⟩ := hstep
        exact .getStep hcall hget
  | delete p =>
    cases hstep
    exact .outside rfl fun hused => fresh_unlink hused p
  | truncate p size =>
    obtain ⟨f, hf, rfl⟩ := Option.map_eq_some_iff.mp hstep
    exact .outside rfl fun hused => fresh_changeInPlace hused hf
  | overwrite p content =>
    obtain ⟨f, hf, rfl⟩ := Option.map_eq_some_iff.mp hstep
    exact .outside rfl fun hused => fresh_changeInPlace hused hf
  | replace p node =>
    cases hstep
    exact .outside rfl fun hused => fresh_create hused p node

/-- Where a `put` comes from: it has not moved, has just begun, or has made this step. -/
theorem Moved.put_call {s s' : State} {a : Act} (h : Moved H s a s') {id : Nat} {body : Bytes} {pc' : PutPc}
    (hcall : s'.calls id = some (.put body pc')) :
    s.calls id = some (.put body pc') ∨ (s.calls id = none ∧ pc' = .entering) ∨
      ∃ answer pc f, a = .step id answer ∧ s.calls id = some (.put body pc) ∧
        Storage.putStep H s.files body answer pc = some (pc', f) ∧ s' = {s with files := f}.setCall id (.put body pc') := by
  cases h with
  | put hfree =>
    rw [State.calls_setCall] at hcall
    split at hcall
    · rename_i hid
      cases hcall
      exact .inr (.inl ⟨hid ▸ hfree, rfl⟩)
    · exact .inl hcall
  | get hfree =>
    rw [State.calls_setCall] at hcall
    split at hcall
    · cases hcall
    · exact .inl hcall
  | putStep hcall₀ hput =>
    rw [State.calls_setCall] at hcall
    split at hcall
    · rename_i hid
      cases hcall
      subst hid
      exact .inr (.inr ⟨_, _, _, rfl, hcall₀, hput, rfl⟩)
    · exact .inl hcall
  | getStep hcall₀ hget =>
    rw [State.calls_setCall] at hcall
    split at hcall
    · cases hcall
    · exact .inl hcall
  | outside => exact .inl hcall

/-- Where a `get` comes from. -/
theorem Moved.get_call {s s' : State} {a : Act} (h : Moved H s a s') {id : Nat} {uri : String}
    {maximumBytes : Option Int} {pc' : GetPc} (hcall : s'.calls id = some (.get uri maximumBytes pc')) :
    s.calls id = some (.get uri maximumBytes pc') ∨ (s.calls id = none ∧ pc' = getStart uri maximumBytes) ∨
      ∃ answer pc, a = .step id answer ∧ s.calls id = some (.get uri maximumBytes pc) ∧
        Storage.getStep H s.files maximumBytes answer pc = some pc' ∧
        s' = s.setCall id (.get uri maximumBytes pc') := by
  cases h with
  | put hfree =>
    rw [State.calls_setCall] at hcall
    split at hcall
    · cases hcall
    · exact .inl hcall
  | get hfree =>
    rw [State.calls_setCall] at hcall
    split at hcall
    · rename_i hid
      cases hcall
      exact .inr (.inl ⟨hid ▸ hfree, rfl⟩)
    · exact .inl hcall
  | putStep hcall₀ hput =>
    rw [State.calls_setCall] at hcall
    split at hcall
    · cases hcall
    · exact .inl hcall
  | getStep hcall₀ hget =>
    rw [State.calls_setCall] at hcall
    split at hcall
    · rename_i hid
      cases hcall
      subst hid
      exact .inr (.inr ⟨_, _, rfl, hcall₀, hget, rfl⟩)
    · exact .inl hcall
  | outside => exact .inl hcall

theorem step_owned {s s' : State} {a : Act} (h : Owned s) (hstep : step H s a = some s') : Owned s' := by
  cases step_moved hstep with
  | put =>
    apply h.setCall
    · intro body pc t heq htemp
      cases heq
      cases htemp
    · intro body t outcome heq
      cases heq
  | get => exact h.setGet _ _ _
  | putStep hcall hput => exact h.putStep hcall (putStep_effect hput)
  | getStep => exact h.setGet _ _ _
  | outside _ hfresh => exact h.fresh (hfresh h.used)

/-- **In every reachable state** each `put` has its hold. -/
theorem run_owned {s₀ s : State} {actions : List Act} (hs : Begins s₀) (hr : (machine H).run s₀ actions = some s) :
    Owned s :=
  Machine.run_invariant_of_step (I := Owned) (fun _ _ _ h hstep => step_owned h hstep) (Owned.begins hs) hr

/-! ### Digest paths are left alone -/

/-- What stands at a digest path, and its content. -/
structure Keeps (f f' : Files) : Prop where
  name : ∀ digest i, f.names (.digest digest) = some i → f'.names (.digest digest) = some i
  node : ∀ digest i, f.names (.digest digest) = some i → f'.nodes i = f.nodes i

theorem keeps_rfl (f : Files) : Keeps f f := ⟨fun _ _ h => h, fun _ _ _ => rfl⟩

theorem PutEffect.keeps {s : State} (h : Owned s) {id : Nat} {body : Bytes} {pc pc' : PutPc} {f : Files}
    (hcall : s.calls id = some (.put body pc)) (heffect : PutEffect H s.files body pc pc' f) : Keeps s.files f := by
  cases heffect with
  | quiet => exact keeps_rfl _
  | created suffix inode hpc hfree hunused =>
    refine ⟨fun digest i hi => by simpa using hi, fun digest i hi => ?_⟩
    have hne : i ≠ s.files.next := Nat.ne_of_lt (h.used _ _ hi)
    simp [hne]
  | wrote t written amount hpc hmore =>
    subst hpc
    refine ⟨fun _ _ hi => hi, fun digest i hi => ?_⟩
    have hne : i ≠ t.fd := by
      rintro rfl
      obtain ⟨directory, suffix, hname⟩ := (h.name id _ t ⟨body, hcall, rfl⟩).1
      obtain heq | ⟨hpc, -⟩ := h.named id _ t ⟨body, hcall, rfl⟩ _ hi
      · rw [hname] at heq
        cases heq
      · cases hpc
    rw [Files.nodes_rewrite, if_neg hne]
  | linked t attempt i hpc hname hfree =>
    refine ⟨fun digest j hj => ?_, fun _ _ _ => rfl⟩
    rw [Files.names_link, if_neg]
    · exact hj
    · rintro heq
      rw [heq, hfree] at hj
      cases hj
  | cleaned t outcome hpc =>
    subst hpc
    refine ⟨fun digest j hj => ?_, fun _ _ _ => rfl⟩
    obtain ⟨directory, suffix, hname⟩ := (h.name id _ t ⟨body, hcall, rfl⟩).1
    rw [Files.names_unlink, if_neg (by simp [hname])]
    exact hj
  | refused => exact keeps_rfl _

/-- **No step of the store changes a file that stands at a digest path**, or takes it away. -/
theorem step_keeps {s s' : State} {a : Act} (h : Owned s) (hinside : a.outside = false)
    (hstep : step H s a = some s') : Keeps s.files s'.files := by
  cases step_moved hstep with
  | put => exact keeps_rfl _
  | get => exact keeps_rfl _
  | putStep hcall hput => exact (putStep_effect hput).keeps h hcall
  | getStep => exact keeps_rfl _
  | outside houtside => exact absurd hinside (by simp [houtside])

/-! ### Nothing temporary remains -/

/-- The file a finished `put` created has no temporary name. -/
theorem Owned.nothing_remains {s : State} (h : Owned s) {id : Nat} {body : Bytes} {t : Temporary}
    {outcome : Except StorageError Stored} (hcall : s.calls id = some (.put body (.finished (some t) outcome)))
    (directory : String) (suffix : Nat) : s.files.names (.temporary directory suffix) ≠ some t.fd := by
  intro hname
  have hs : s.Stages id (.finished (some t) outcome) t := ⟨body, hcall, rfl⟩
  obtain heq | ⟨-, digest, heq⟩ := h.named id _ t hs _ hname
  · exact h.gone id t outcome hs (heq ▸ hname)
  · cases heq

/-! ### What `get` returns -/

/-- The size `get` has noted is within its bound, and the URI has the digest. -/
def GetPc.Within (uri : String) (maximumBytes : Option Int) : GetPc → Prop
  | .lstat digest | .opening digest _ | .fstat digest _ _ => uriDigest uri = some digest
  | .reading digest _ expected _ | .confirming digest _ expected _ =>
    uriDigest uri = some digest ∧ ∀ bound ∈ maximumBytes, (expected : Int) ≤ bound
  | .finished (.ok body) => uriDigest uri = some (H.hexdigest body) ∧ ∀ bound ∈ maximumBytes, (body.length : Int) ≤ bound
  | .finished (.error _) => True

theorem getStart_within (uri : String) (maximumBytes : Option Int) :
    (getStart uri maximumBytes).Within (H := H) uri maximumBytes := by
  unfold getStart
  split
  · trivial
  · rename_i digest hdigest
    split
    · trivial
    · split
      · trivial
      · exact hdigest

theorem getStep_within {f : Files} {uri : String} {maximumBytes : Option Int} {a : Answer} {pc pc' : GetPc}
    (h : pc.Within (H := H) uri maximumBytes) (hstep : getStep H f maximumBytes a pc = some pc') :
    pc'.Within (H := H) uri maximumBytes := by
  cases pc with
  | lstat digest =>
    cases hstep
    split
    · trivial
    · split
      · trivial
      · split
        · exact h
        · trivial
  | opening digest inode =>
    cases hstep
    split
    · trivial
    · split
      · trivial
      · split
        · trivial
        · exact h
  | fstat digest inode fd =>
    cases hstep
    split
    · trivial
    · split
      · trivial
      · split
        · trivial
        · split
          · trivial
          · rename_i hfits
            exact ⟨h, fun bound hbound => Int.not_lt.mp fun hlt => hfits ⟨bound, hbound, hlt⟩⟩
  | reading digest fd expected chunks =>
    cases hstep
    dsimp only
    split
    · trivial
    · split
      · exact h
      · split
        · trivial
        · exact h
  | confirming digest fd expected chunks =>
    cases hstep
    split
    · trivial
    · split
      · trivial
      · rename_i hsize
        split
        · trivial
        · rename_i hdigest
          simp only [not_or, not_not] at hsize hdigest
          exact ⟨hdigest ▸ h.1, fun bound hbound => hsize.1 ▸ h.2 bound hbound⟩
  | finished outcome => cases hstep

def Bounded (H : Hash) (s : State) : Prop :=
  ∀ id uri maximumBytes pc, s.calls id = some (.get uri maximumBytes pc) → pc.Within (H := H) uri maximumBytes

theorem Bounded.setCall {s : State} (h : Bounded H s) {id : Nat} {c : Call}
    (hc : ∀ uri maximumBytes pc, c = .get uri maximumBytes pc → pc.Within (H := H) uri maximumBytes) (f : Files) :
    Bounded H ({s with files := f}.setCall id c) := by
  intro id' uri maximumBytes pc hcall
  rw [State.calls_setCall] at hcall
  split at hcall
  · cases hcall
    exact hc uri maximumBytes pc rfl
  · exact h id' uri maximumBytes pc hcall

theorem step_bounded {s s' : State} {a : Act} (h : Bounded H s) (hstep : step H s a = some s') : Bounded H s' := by
  cases step_moved hstep with
  | put => exact h.setCall (fun _ _ _ heq => by cases heq) s.files
  | get =>
    refine h.setCall (fun uri maximumBytes pc heq => ?_) s.files
    cases heq
    exact getStart_within _ _
  | putStep => exact h.setCall (fun _ _ _ heq => by cases heq) _
  | getStep hcall hget =>
    refine h.setCall (fun uri maximumBytes pc heq => ?_) s.files
    cases heq
    exact getStep_within (h _ _ _ _ hcall) hget
  | outside => exact h

/-- **In every reachable state**, what a `get` has returned hashes to its URI and is within
its bound. -/
theorem run_bounded {s₀ s : State} {actions : List Act} (hs : Begins s₀) (hr : (machine H).run s₀ actions = some s) :
    Bounded H s := by
  have hstart : Bounded H s₀ := by
    intro id uri maximumBytes pc hcall
    rw [hs.quiet] at hcall
    cases hcall
  exact Machine.run_invariant_of_step (I := Bounded H) (fun _ _ _ h hstep => step_bounded h hstep) hstart hr

end Fetech.Storage
