import Mathlib.Data.List.Basic

/-! Streams that are decoded piece by piece.

A machine takes its input one symbol at a time, says what each gives, and ends at some symbol or breaks.
The object around it (`Decompressor`) is given pieces and a limit on what it may return: a call runs the
machine until the piece or the stream is used up or the limit is reached, and keeps what is over. As long
as the limit is not reached, pieces come to the same as the input they were cut from (`decompress_some`,
`decompress_of_run`). -/
namespace Lib

structure Decoding (σ α β : Type) where
  start : σ
  next : σ → α → Option (List β × σ)
  ended : σ → Bool

namespace Decoding
variable {σ α β : Type} (d : Decoding σ α β)

/-- What an input gives, if the machine takes all of it: nothing comes after the end. -/
def run (s : σ) : List α → Option (List β × σ)
  | [] => some ([], s)
  | a :: rest =>
    if d.ended s then none
    else
      match d.next s a with
      | none => none
      | some (out, t) => (run t rest).map fun r => (out ++ r.1, r.2)

/-- The decoding of one complete stream. -/
def decode (input : List α) : Option (List β) :=
  match d.run d.start input with
  | none => none
  | some (out, s) => if d.ended s then some out else none

/-! ### The object -/

/-- A decompression object: the machine, what it decoded and did not return yet, and its attributes. -/
structure Decompressor (σ α β : Type) where
  inner : σ
  held : List β := []
  eof : Bool := false
  unusedData : List α := []
  unconsumedTail : List α := []

def decompressobj : Decompressor σ α β := {inner := d.start}

/-- No more may be returned; zero is no limit. -/
def isFull (limit : Nat) (produced : List β) : Bool := limit ≠ 0 && limit ≤ produced.length

/-- The part of it that may be returned. -/
def within (limit : Nat) (produced : List β) : List β := if limit = 0 then produced else produced.take limit

def beyond (limit : Nat) (produced : List β) : List β := if limit = 0 then [] else produced.drop limit

/-- What a piece gives after what there is, and where the machine is with what is left of the piece,
unless it broke. -/
def feed (limit : Nat) (s : σ) (produced : List β) : List α → List β × Option (σ × List α)
  | [] => (produced, some (s, []))
  | a :: rest =>
    if d.ended s || isFull limit produced then (produced, some (s, a :: rest))
    else
      match d.next s a with
      | none => (produced, none)
      | some (out, t) => feed limit t (produced ++ out) rest

/-- A call of `decompress`: what it decoded, and what it returned unless it raised. -/
def decompress (z : Decompressor σ α β) (data : List α) (limit : Nat) : List β × Option (List β × Decompressor σ α β) :=
  if z.eof then ([], some ([], {z with unusedData := z.unusedData ++ data}))
  else
    let (produced, left) := d.feed limit z.inner z.held data
    (within limit produced, left.map fun (s, rest) =>
      let held := beyond limit produced
      let eof := d.ended s && held.isEmpty
      (within limit produced, {
        inner := s, held, eof
        unusedData := if eof then rest else []
        unconsumedTail := if eof then [] else rest }))

/-! ### What pieces come to -/

variable {d} {s t : σ} {limit : Nat} {produced out : List β} {data : List α}

theorem run_append {input : List α} (h : d.run s input = some (out, t)) (data : List α) :
    d.run s (input ++ data) = (d.run t data).map fun r => (out ++ r.1, r.2) := by
  induction input generalizing s out with
  | nil =>
    cases h
    rw [List.nil_append]
    cases d.run t data with
    | none => rfl
    | some r => rfl
  | cons a input ih =>
    rw [run] at h
    rw [List.cons_append, run]
    split at h
    · cases h
    · rename_i hended
      rw [if_neg hended]
      cases hnext : d.next s a with
      | none =>
        rw [hnext] at h
        cases h
      | some r =>
        obtain ⟨first, u⟩ := r
        rw [hnext] at h
        obtain ⟨⟨rest, t'⟩, hrun, heq⟩ := Option.map_eq_some_iff.mp h
        cases heq
        dsimp only
        rw [ih hrun, Option.map_map]
        refine congrArg (fun f => (d.run _ data).map f) (funext fun r => ?_)
        exact Prod.ext (List.append_assoc ..).symm rfl

/-- A part from the start runs if the whole does. -/
theorem run_of_append {input : List α} (h : d.run s (input ++ data) = some (out, t)) :
    ∃ first rest u, d.run s input = some (first, u) ∧ d.run u data = some (rest, t) ∧ out = first ++ rest := by
  cases hinput : d.run s input with
  | some r =>
    obtain ⟨first, u⟩ := r
    rw [run_append hinput] at h
    obtain ⟨⟨rest, t'⟩, hrun, heq⟩ := Option.map_eq_some_iff.mp h
    cases heq
    exact ⟨first, rest, u, rfl, hrun, rfl⟩
  | none =>
    exfalso
    induction input generalizing s out t with
    | nil => cases hinput
    | cons a input ih =>
      rw [run] at hinput
      rw [List.cons_append, run] at h
      split at h
      · cases h
      · rename_i hended
        rw [if_neg hended] at hinput
        cases hnext : d.next s a with
        | none =>
          rw [hnext] at h
          cases h
        | some r =>
          obtain ⟨first, u⟩ := r
          rw [hnext] at h hinput
          obtain ⟨⟨rest, t'⟩, hrun, -⟩ := Option.map_eq_some_iff.mp h
          exact ih hrun (Option.map_eq_none_iff.mp hinput)

/-- Nothing runs on after the end. -/
theorem run_ended (hended : d.ended s = true) (h : d.run s data = some (out, t)) : data = [] := by
  cases data with
  | nil => rfl
  | cons a rest =>
    rw [run, if_pos hended] at h
    cases h

/-- What a call takes of a piece, it runs. -/
theorem feed_some {all : List β} {rest : List α} (h : d.feed limit s produced data = (all, some (t, rest))) :
    ∃ taken more, data = taken ++ rest ∧ d.run s taken = some (more, t) ∧ all = produced ++ more ∧
      (rest ≠ [] → d.ended t = true ∨ isFull limit all = true) := by
  induction data generalizing s produced with
  | nil =>
    cases h
    exact ⟨[], [], rfl, rfl, (List.append_nil _).symm, fun hne => absurd rfl hne⟩
  | cons a data ih =>
    rw [feed] at h
    split at h
    · rename_i hstop
      cases h
      exact ⟨[], [], rfl, rfl, (List.append_nil _).symm, fun _ => Bool.or_eq_true _ _ ▸ hstop⟩
    · rename_i hgo
      cases hnext : d.next s a with
      | none =>
        rw [hnext] at h
        cases h
      | some r =>
        obtain ⟨first, u⟩ := r
        rw [hnext] at h
        obtain ⟨taken, more, hdata, hrun, hall, hrest⟩ := ih h
        have hended : ¬ d.ended s = true := fun hended => hgo (by rw [hended, Bool.true_or])
        refine ⟨a :: taken, first ++ more, by rw [hdata]; rfl, ?_, by rw [hall, List.append_assoc], hrest⟩
        rw [run, if_neg hended, hnext]
        dsimp only
        rw [hrun]
        rfl

theorem feed_of_run {more : List β} (hrun : d.run s data = some (more, t)) (hroom : (produced ++ more).length < limit) :
    d.feed limit s produced data = (produced ++ more, some (t, [])) := by
  induction data generalizing s produced more with
  | nil =>
    cases hrun
    rw [feed, List.append_nil]
  | cons a data ih =>
    rw [run] at hrun
    split at hrun
    · cases hrun
    · rename_i hended
      cases hnext : d.next s a with
      | none =>
        rw [hnext] at hrun
        cases hrun
      | some r =>
        obtain ⟨first, u⟩ := r
        rw [hnext] at hrun
        obtain ⟨⟨rest, t'⟩, hrest, heq⟩ := Option.map_eq_some_iff.mp hrun
        cases heq
        have hfull : isFull limit produced = false := by
          rw [List.length_append] at hroom
          rw [isFull, Bool.and_eq_false_iff, decide_eq_false_iff_not, decide_eq_false_iff_not]
          omega
        rw [feed, Bool.eq_false_iff.mpr hended, hfull, Bool.false_or, if_neg Bool.false_ne_true, hnext]
        dsimp only
        rw [← List.append_assoc] at hroom ⊢
        exact ih hrest hroom

theorem length_within (hlimit : limit ≠ 0) (produced : List β) : (within limit produced).length ≤ limit := by
  rw [within, if_neg hlimit]
  exact List.length_take_le _ _

/-- What is below the limit is all that was produced. -/
theorem within_eq (h : (within limit produced).length < limit) :
    within limit produced = produced ∧ beyond limit produced = [] ∧ isFull limit produced = false := by
  have hlimit : limit ≠ 0 := by omega
  rw [within, if_neg hlimit, List.length_take] at h
  have hroom : produced.length < limit := by omega
  refine ⟨?_, ?_, ?_⟩
  · rw [within, if_neg hlimit, List.take_of_length_le (Nat.le_of_lt hroom)]
  · rw [beyond, if_neg hlimit, List.drop_of_length_le (Nat.le_of_lt hroom)]
  · rw [isFull, Bool.and_eq_false_iff, decide_eq_false_iff_not, decide_eq_false_iff_not]
    omega

/-- **A call that returns less than its limit** ran the machine on the piece, but for what comes after the
end of the stream. -/
theorem decompress_some {z z' : Decompressor σ α β} {decoded : List β} (hz : z.eof = false) (hheld : z.held = [])
    (h : d.decompress z data limit = (decoded, some (out, z'))) (hroom : out.length < limit) :
    decoded = out ∧ z'.held = [] ∧ z'.unconsumedTail = [] ∧ z'.eof = d.ended z'.inner ∧
      ∃ taken, data = taken ++ z'.unusedData ∧ d.run z.inner taken = some (out, z'.inner) := by
  rw [decompress, hz, if_neg Bool.false_ne_true, hheld] at h
  cases hfeed : d.feed limit z.inner [] data with
  | mk all left =>
    rw [hfeed] at h
    cases left with
    | none => cases h
    | some left =>
      obtain ⟨t, rest⟩ := left
      cases h
      obtain ⟨hall, hbeyond, hfull⟩ := within_eq hroom
      obtain ⟨taken, more, hdata, hrun, hmore, hrest⟩ := feed_some hfeed
      rw [List.nil_append] at hmore
      have hend : d.ended t = false → rest = [] := by
        intro hended
        by_contra hne
        obtain hend | hend := hrest hne
        · rw [hended] at hend
          cases hend
        · rw [hfull] at hend
          cases hend
      rw [hall, hbeyond, hmore, List.isEmpty_nil, Bool.and_true]
      refine ⟨rfl, rfl, ?_, rfl, taken, ?_, hrun⟩
      · show (if d.ended t = true then [] else rest) = []
        split
        · rfl
        · exact hend (Bool.eq_false_iff.mpr ‹_›)
      · show data = taken ++ if d.ended t = true then rest else []
        split
        · exact hdata
        · rw [hdata, hend (Bool.eq_false_iff.mpr ‹_›)]

/-- A call that has room for all that a piece gives. -/
theorem decompress_of_run {z : Decompressor σ α β} (hz : z.eof = false) (hheld : z.held = [])
    (hrun : d.run z.inner data = some (out, t)) (hroom : out.length < limit) :
    ∃ z', d.decompress z data limit = (out, some (out, z')) ∧ z'.unusedData = [] := by
  have hfeed : d.feed limit z.inner [] data = ([] ++ out, some (t, [])) := feed_of_run hrun hroom
  rw [List.nil_append] at hfeed
  have hlimit : limit ≠ 0 := by omega
  have hwithin : within limit out = out := by
    rw [within, if_neg hlimit, List.take_of_length_le (Nat.le_of_lt hroom)]
  rw [decompress, hz, if_neg Bool.false_ne_true, hheld, hfeed]
  dsimp only [Option.map_some]
  rw [hwithin]
  exact ⟨_, rfl, ite_self []⟩

/-- What a call returns is what it decoded. -/
theorem decompress_fst {z z' : Decompressor σ α β} {decoded : List β}
    (h : d.decompress z data limit = (decoded, some (out, z'))) : decoded = out := by
  rw [decompress] at h
  split at h
  · cases h
    rfl
  · obtain ⟨hdecoded, hsome⟩ := Prod.mk.inj h
    obtain ⟨left, -, heq⟩ := Option.map_eq_some_iff.mp hsome
    cases heq
    exact hdecoded.symm

/-- No call decodes more than its limit. -/
theorem length_decompress {z : Decompressor σ α β} (hlimit : limit ≠ 0) : (d.decompress z data limit).1.length ≤ limit := by
  rw [decompress]
  split
  · exact Nat.zero_le _
  · exact length_within hlimit _

end Decoding
end Lib
