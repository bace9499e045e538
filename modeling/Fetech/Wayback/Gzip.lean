import Fetech.Connector.Accounting
import Fetech.Wayback

/-! A compressed body, however it is cut into pieces.

After any pieces the reader is where the machine is after their bytes (`Follows`), so a body that is
returned is the decoding of all of them; and each piece is recorded before anything can be raised. -/
namespace Fetech.Wayback
open Lib Lib.Except Connector

variable {σ : Type} {z : Decoding σ UInt8 UInt8} {maximumBytes : Int} {usage : SnapshotConnectorUsage}

/-- The ledger covers what came in and what was decoded. -/
structure Recorded (usage : SnapshotConnectorUsage) (s : BodyReader σ) : Prop where
  wire : usage.wireBytes + s.received ≤ s.usage.wireBytes
  decompressed : usage.decompressedBytes + s.decoded ≤ s.usage.decompressedBytes
  limits : ∀ limit ∈ s.limits, 1 ≤ limit

/-- What a body may come to. -/
structure Fits (z : Decoding σ UInt8 UInt8) (maximumBytes : Int) (input out : List UInt8) (u : σ) : Prop where
  run : z.run z.start input = some (out, u)
  wire : input.length ≤ maximumBytes
  decompressed : out.length ≤ maximumBytes
  callable : maximumBytes + 1 ≤ maxsize

/-- The reader has read exactly an input. -/
structure Follows (z : Decoding σ UInt8 UInt8) (maximumBytes : Int) (usage : SnapshotConnectorUsage) (input : List UInt8)
    (s : BodyReader σ) : Prop where
  run : z.run z.start input = some (s.chunks.flatten, s.decoder.inner)
  held : s.decoder.held = []
  eof : s.decoder.eof = true ↔ input ≠ [] ∧ z.ended s.decoder.inner = true
  wireSize : s.wireSize = input.length
  decompressedSize : s.decompressedSize = s.chunks.flatten.length
  fits : input ≠ [] → Fits z maximumBytes input s.chunks.flatten s.decoder.inner
  received : s.usage.wireBytes = usage.wireBytes + s.received
  decoded : s.usage.decompressedBytes = usage.decompressedBytes + s.decoded
  sizes : s.received = input.length ∧ s.decoded = s.chunks.flatten.length
  limits : ∀ limit ∈ s.limits, 1 ≤ limit

theorem Follows.recorded {input : List UInt8} {s : BodyReader σ} (h : Follows z maximumBytes usage input s) : Recorded usage s :=
  ⟨h.received.ge, h.decoded.ge, h.limits⟩

theorem follows_opened : Follows z maximumBytes usage [] (opened z usage) where
  run := rfl
  held := rfl
  eof := ⟨nofun, fun h => absurd rfl h.1⟩
  wireSize := rfl
  decompressedSize := rfl
  fits := fun h => absurd rfl h
  received := (Int.add_zero _).symm
  decoded := (Int.add_zero _).symm
  sizes := ⟨rfl, rfl⟩
  limits := nofun

theorem recorded_opened : Recorded usage (opened z usage) := ⟨(Int.add_zero _).le, (Int.add_zero _).le, nofun⟩

/-- What fits with more, fits. -/
theorem Fits.of_append {input rest out : List UInt8} {u : σ} (h : Fits z maximumBytes (input ++ rest) out u) :
    ∃ first v, Fits z maximumBytes input first v := by
  obtain ⟨first, more, v, hinput, -, hout⟩ := Decoding.run_of_append h.run
  have hwire := h.wire
  have hdecompressed := h.decompressed
  rw [List.length_append] at hwire
  rw [hout, List.length_append] at hdecompressed
  exact ⟨first, v, hinput, by omega, by omega, h.callable⟩

/-- Nothing was decoded before the first piece. -/
theorem Follows.first {s : BodyReader σ} (h : Follows z maximumBytes usage [] s) : s.decompressedSize = 0 := by
  have hrun := h.run
  rw [Decoding.run] at hrun
  have hchunks : s.chunks.flatten = [] := (Prod.mk.inj (Option.some.inj hrun)).1.symm
  rw [h.decompressedSize, hchunks, List.length_nil]

/-- No limit is less than one. -/
theorem one_le_limit {input : List UInt8} {s : BodyReader σ} (h : Follows z maximumBytes usage input s) {chunk : List UInt8}
    (hwire : ((s.wireSize + chunk.length : Nat) : Int) ≤ maximumBytes) : 1 ≤ maximumBytes - s.decompressedSize + 1 := by
  by_cases hinput : input = []
  · rw [hinput] at h
    rw [h.first]
    omega
  · have hfits := (h.fits hinput).decompressed
    rw [h.decompressedSize]
    omega

@[simp] theorem meets_receive (chunk : List UInt8) (s : BodyReader σ) {Q : Unit → BodyReader σ → Prop} {E : ConnectorError → BodyReader σ → Prop} :
    (receive chunk).Meets s Q E ↔ Q () {s with received := s.received + chunk.length} := Iff.rfl

/-- Amounts that are not negative are recorded. -/
theorem meets_recordUsage {amount : SnapshotConnectorUsage} (h : amount.isValid = true) (s : BodyReader σ)
    {Q : Unit → BodyReader σ → Prop} {E : ConnectorError → BodyReader σ → Prop} :
    (recordUsage amount).Meets s Q E ↔ Q () {s with usage := {
      wireBytes := s.usage.wireBytes + amount.wireBytes
      decompressedBytes := s.usage.decompressedBytes + amount.decompressedBytes
      redirects := s.usage.redirects + amount.redirects}} := by
  have hrecord : s.usage.record amount = .ok {
      wireBytes := s.usage.wireBytes + amount.wireBytes
      decompressedBytes := s.usage.decompressedBytes + amount.decompressedBytes
      redirects := s.usage.redirects + amount.redirects} := by
    rw [SnapshotConnectorUsage.record, h]
    rfl
  rw [recordUsage]
  simp only [Program.meets_bind, Program.meets_get, Program.meets_ofExcept, Program.meets_modify, hrecord]
  exact ⟨fun hall => hall.1 _ rfl, fun hQ => ⟨fun _ heq => by cases heq; exact hQ, fun _ herror => absurd herror.symm error_ne_ok⟩⟩

/-- A call of the decoder with a positive limit. -/
theorem meets_decompress {chunk : List UInt8} {limit : Int} (hpos : 1 ≤ limit) (s : BodyReader σ)
    {Q : Option (List UInt8) → BodyReader σ → Prop} {E : ConnectorError → BodyReader σ → Prop} :
    (decompress z chunk limit).Meets s Q E ↔
      (limit ≤ maxsize →
        ((z.decompress s.decoder chunk limit.toNat).2 = none →
          Q none {s with
            limits := s.limits ++ [limit]
            decoded := s.decoded + (z.decompress s.decoder chunk limit.toNat).1.length}) ∧
        ∀ out decoder, (z.decompress s.decoder chunk limit.toNat).2 = some (out, decoder) →
          Q (some out) {s with
            limits := s.limits ++ [limit]
            decoded := s.decoded + (z.decompress s.decoder chunk limit.toNat).1.length, decoder}) ∧
      (¬ limit ≤ maxsize → E .other {s with limits := s.limits ++ [limit]}) := by
  have hnonneg : 0 ≤ limit := by omega
  rw [decompress]
  simp only [Program.meets_bind, Program.meets_modify, Program.meets_check, Program.meets_get, decide_eq_true hnonneg,
    decide_eq_true_eq, decide_eq_false_iff_not, true_implies, reduceCtorEq, false_implies, and_true]
  refine and_congr_left fun _ => imp_congr_right fun _ => ?_
  cases (z.decompress s.decoder chunk limit.toNat).2 with
  | none => simp
  | some call =>
    obtain ⟨out, decoder⟩ := call
    simp only [Program.meets_bind, Program.meets_modify, Program.meets_pure, reduceCtorEq, false_implies, true_and,
      Option.some.injEq, Prod.mk.injEq]
    exact ⟨fun hQ _ _ heq => by obtain ⟨rfl, rfl⟩ := heq; exact hQ, fun h => h out decoder ⟨rfl, rfl⟩⟩

theorem isValid_wire (n : Nat) : SnapshotConnectorUsage.isValid {wireBytes := n} = true :=
  isValid_iff.mpr ⟨Int.natCast_nonneg n, le_refl 0, le_refl 0⟩

theorem isValid_decompressed {n : Int} (h : 0 ≤ n) : SnapshotConnectorUsage.isValid {decompressedBytes := n} = true :=
  isValid_iff.mpr ⟨le_refl 0, h, le_refl 0⟩

/-- The machine has taken the input, and what fits with a piece is what it gives on it. -/
theorem Follows.run_piece {input chunk out : List UInt8} {s : BodyReader σ} {u : σ} (h : Follows z maximumBytes usage input s)
    (hfits : Fits z maximumBytes (input ++ chunk) out u) :
    ∃ more, z.run s.decoder.inner chunk = some (more, u) ∧ out = s.chunks.flatten ++ more := by
  obtain ⟨first, more, v, hinput, hchunk, hout⟩ := Decoding.run_of_append hfits.run
  rw [h.run] at hinput
  cases hinput
  exact ⟨more, hchunk, hout⟩

/-- The call that is made on a piece that fits. -/
theorem Follows.call {input chunk out : List UInt8} {s : BodyReader σ} {u : σ} (h : Follows z maximumBytes usage input s)
    (heof : s.decoder.eof = false) (hfits : Fits z maximumBytes (input ++ chunk) out u) :
    ∃ more decoder, z.decompress s.decoder chunk (maximumBytes - s.decompressedSize + 1).toNat = (more, some (more, decoder)) ∧
      decoder.unusedData = [] ∧ s.decompressedSize + more.length ≤ maximumBytes := by
  obtain ⟨more, hchunk, hout⟩ := h.run_piece hfits
  have hsize := hfits.decompressed
  rw [hout, List.length_append, ← h.decompressedSize] at hsize
  have hroom : more.length < (maximumBytes - s.decompressedSize + 1).toNat := by omega
  obtain ⟨decoder, hcall, hunused⟩ := Decoding.decompress_of_run heof h.held hchunk hroom
  exact ⟨more, decoder, hcall, hunused, by omega⟩

/-- The reader with a piece that came in. -/
def arrived (s : BodyReader σ) (chunk : List UInt8) : BodyReader σ :=
  {s with
    received := s.received + chunk.length
    wireSize := s.wireSize + chunk.length
    usage := {s.usage with wireBytes := s.usage.wireBytes + chunk.length}}

theorem recorded_arrived {input : List UInt8} {s : BodyReader σ} (h : Follows z maximumBytes usage input s) (chunk : List UInt8) :
    Recorded usage (arrived s chunk) := by
  have hreceived := h.received
  have hdecoded := h.decoded
  refine ⟨?_, ?_, h.limits⟩
  · show usage.wireBytes + (s.received + chunk.length : Nat) ≤ s.usage.wireBytes + chunk.length
    omega
  · show usage.decompressedBytes + s.decoded ≤ s.usage.decompressedBytes
    omega

theorem limits_append {limits : List Int} (h : ∀ limit ∈ limits, 1 ≤ limit) {last : Int} (hlast : 1 ≤ last) :
    ∀ limit ∈ limits ++ [last], 1 ≤ limit :=
  List.forall_mem_append.mpr ⟨h, List.forall_mem_singleton.mpr hlast⟩

/-- A piece that was taken whole. -/
theorem Follows.piece {input chunk decoded : List UInt8} {s : BodyReader σ} {decoder : Decoding.Decompressor σ UInt8 UInt8}
    (h : Follows z maximumBytes usage input s) (hne : chunk ≠ []) (hwire : ((s.wireSize + chunk.length : Nat) : Int) ≤ maximumBytes)
    (hmax : maximumBytes - s.decompressedSize + 1 ≤ maxsize) (hsize : ((s.decompressedSize + decoded.length : Nat) : Int) ≤ maximumBytes)
    (hrun : z.run s.decoder.inner chunk = some (decoded, decoder.inner)) (hheld : decoder.held = [])
    (heof : decoder.eof = z.ended decoder.inner) :
    Follows z maximumBytes usage (input ++ chunk) {
      decoder, chunks := s.chunks ++ [decoded], wireSize := s.wireSize + chunk.length
      usage := {
        wireBytes := s.usage.wireBytes + chunk.length
        decompressedBytes := s.usage.decompressedBytes + decoded.length, redirects := s.usage.redirects}
      decompressedSize := s.decompressedSize + decoded.length, received := s.received + chunk.length
      decoded := s.decoded + decoded.length, limits := s.limits ++ [maximumBytes - s.decompressedSize + 1] } := by
  have hflatten : (s.chunks ++ [decoded]).flatten = s.chunks.flatten ++ decoded := by
    rw [List.flatten_append, List.flatten_singleton]
  have hall : z.run z.start (input ++ chunk) = some (s.chunks.flatten ++ decoded, decoder.inner) := by
    rw [Decoding.run_append h.run, hrun]
    rfl
  have hreceived := h.received
  have hdecoded := h.decoded
  have hwireSize := h.wireSize
  have hdecompressedSize := h.decompressedSize
  obtain ⟨hin, hout⟩ := h.sizes
  constructor
  · dsimp only
    rw [hflatten]
    exact hall
  · exact hheld
  · dsimp only
    rw [heof]
    exact ⟨fun hended => ⟨List.append_ne_nil_of_right_ne_nil input hne, hended⟩, fun h => h.2⟩
  · rw [List.length_append, ← hwireSize]
  · dsimp only
    rw [hflatten, List.length_append, ← hdecompressedSize]
  · intro _
    dsimp only
    rw [hflatten]
    refine ⟨hall, ?_, ?_, ?_⟩
    · rw [List.length_append, ← hwireSize]
      exact hwire
    · rw [List.length_append, ← hdecompressedSize]
      exact hsize
    · by_cases hinput : input = []
      · rw [hinput] at h
        rw [h.first] at hmax
        omega
      · exact (h.fits hinput).callable
  · dsimp only
    omega
  · dsimp only
    omega
  · dsimp only
    rw [hflatten, List.length_append, List.length_append, hin, hout]
    exact ⟨rfl, rfl⟩
  · exact limits_append h.limits (one_le_limit h hwire)

/-- **A piece**: the reader goes on to where the machine is after it, or raises because the input does not
fit any more; and whatever it does, it has recorded what came in. -/
theorem chunk_meets {input : List UInt8} {s : BodyReader σ} (h : Follows z maximumBytes usage input s) (chunk : List UInt8) :
    (readGzipChunk z maximumBytes chunk).Meets s
      (fun _ t => Follows z maximumBytes usage (input ++ chunk) t)
      fun _ t => Recorded usage t ∧ ∀ out u, ¬ Fits z maximumBytes (input ++ chunk) out u := by
  have harrived := recorded_arrived h chunk
  rw [readGzipChunk]
  simp only [Program.meets_bind, meets_receive, Program.meets_ite, Program.meets_pure, Program.meets_modify, Program.meets_get,
    Program.meets_check, List.isEmpty_iff, meets_recordUsage (isValid_wire chunk.length), Int.add_zero]
  refine ⟨fun hempty => ?_, fun hne => ⟨fun hwire => ⟨fun heof => ?_, fun heof => ?_⟩, fun hwire => ⟨harrived, fun out u hfits => ?_⟩⟩⟩
  · rw [hempty, List.append_nil, List.length_nil]
    exact h
  · rw [Bool.not_eq_true'] at heof
    have hwire := of_decide_eq_true hwire
    have hlimit := one_le_limit h hwire
    have hreceived := h.received
    have hdecoded := h.decoded
    rw [meets_decompress hlimit]
    dsimp only
    have hbound : (z.decompress s.decoder chunk (maximumBytes - s.decompressedSize + 1).toNat).1.length ≤
        (maximumBytes - s.decompressedSize + 1).toNat := Decoding.length_decompress (by omega)
    generalize hcall : z.decompress s.decoder chunk (maximumBytes - s.decompressedSize + 1).toNat = call at hbound
    obtain ⟨decoded, result⟩ := call
    refine ⟨fun hmax => ⟨fun hnone => ?_, fun out decoder hsome => ?_⟩, fun hmax => ⟨?_, fun out u hfits => ?_⟩⟩
    · have hrecord : 0 ≤ maximumBytes - s.decompressedSize + 1 := by omega
      rw [Program.meets_bind, meets_recordUsage (isValid_decompressed hrecord), Program.meets_raise]
      simp only [Int.add_zero]
      refine ⟨⟨?_, ?_, limits_append h.limits hlimit⟩, fun out u hfits => ?_⟩
      · dsimp only
        omega
      · dsimp only at hbound ⊢
        omega
      · obtain ⟨more, decoder, hcall', -⟩ := h.call heof hfits
        rw [hcall] at hcall'
        cases hcall'
        cases hnone
    · dsimp only at hsome
      rw [hsome] at hcall
      have hout : decoded = out := Decoding.decompress_fst hcall
      rw [← hout] at hcall
      simp only [Program.meets_bind, Program.meets_modify, Program.meets_get, Program.meets_check,
        meets_recordUsage (isValid_decompressed (Int.natCast_nonneg out.length)), Int.add_zero]
      rw [← hout]
      have hstate : ∀ t : BodyReader σ, t.received = s.received + chunk.length → t.decoded = s.decoded + decoded.length →
          t.usage.wireBytes = s.usage.wireBytes + chunk.length → t.usage.decompressedBytes = s.usage.decompressedBytes + decoded.length →
          t.limits = s.limits ++ [maximumBytes - s.decompressedSize + 1] → Recorded usage t := by
        intro t hreceived' hdecoded' hwire' hdecompressed' hlimits
        refine ⟨?_, ?_, ?_⟩
        · rw [hreceived', hwire']
          omega
        · rw [hdecoded', hdecompressed']
          omega
        · rw [hlimits]
          exact limits_append h.limits hlimit
      have hmore : ∀ all u, Fits z maximumBytes (input ++ chunk) all u →
          decoder.unusedData = [] ∧ s.decompressedSize + decoded.length ≤ maximumBytes := by
        intro all u hfits
        obtain ⟨more, decoder', hcall', hunused, hsize⟩ := h.call heof hfits
        rw [hcall] at hcall'
        cases hcall'
        exact ⟨hunused, hsize⟩
      refine ⟨fun hsize => ⟨fun hunused => ⟨fun htail => ?_, fun htail => ?_⟩, fun hunused => ⟨?_, fun all u hfits => ?_⟩⟩,
        fun hsize => ⟨?_, fun all u hfits => ?_⟩⟩
      · obtain ⟨-, hheld, -, heof', taken, hchunk, hrun⟩ := Decoding.decompress_some heof h.held hcall (by
          rw [decide_eq_true_eq] at hsize
          omega)
        rw [List.isEmpty_iff.mp hunused, List.append_nil] at hchunk
        rw [← hchunk] at hrun
        exact h.piece hne hwire hmax (of_decide_eq_true hsize) hrun hheld heof'
      · obtain ⟨-, -, hnone, -⟩ := Decoding.decompress_some heof h.held hcall (by
          rw [decide_eq_true_eq] at hsize
          omega)
        rw [hnone] at htail
        cases htail
      · exact hstate _ rfl rfl rfl rfl rfl
      · rw [(hmore all u hfits).1] at hunused
        cases hunused
      · exact hstate _ rfl rfl rfl rfl rfl
      · have hfits := (hmore all u hfits).2
        rw [decide_eq_false_iff_not] at hsize
        omega
    · exact ⟨harrived.wire, harrived.decompressed, limits_append h.limits hlimit⟩
    · have hcallable := hfits.callable
      omega
  · rw [Bool.not_eq_false'] at heof
    refine ⟨harrived, fun out u hfits => ?_⟩
    obtain ⟨more, hchunk, -⟩ := h.run_piece hfits
    exact hne (Decoding.run_ended (h.eof.mp heof).2 hchunk)
  · have hlength := hfits.wire
    have hsize := h.wireSize
    rw [List.length_append] at hlength
    rw [decide_eq_false_iff_not] at hwire
    omega

/-! ### Whole bodies -/

/-- What a reader returns for a body of so many bytes: the decoding of all of them, which are one complete
stream, and neither they nor it are longer than allowed. -/
structure Decodes (z : Decoding σ UInt8 UInt8) (maximumBytes : Int) (bytes body : List UInt8) : Prop where
  nonempty : bytes ≠ []
  decode : z.decode bytes = some body
  wire : bytes.length ≤ maximumBytes
  decompressed : body.length ≤ maximumBytes
  callable : maximumBytes + 1 ≤ maxsize

theorem Decodes.fits {bytes body : List UInt8} (h : Decodes z maximumBytes bytes body) : ∃ u, Fits z maximumBytes bytes body u := by
  have hdecode := h.decode
  rw [Decoding.decode] at hdecode
  split at hdecode
  · cases hdecode
  · rename_i out u hrun
    split at hdecode
    · cases hdecode
      exact ⟨u, hrun, h.wire, h.decompressed, h.callable⟩
    · cases hdecode

/-- **A body**: whatever the pieces, what is returned is the decoding of their bytes, it is returned whenever
there is one, and everything that came in or was decoded is recorded. -/
theorem gzip_meets (maximumBytes : Int) (usage : SnapshotConnectorUsage) (response : Response) :
    (readBoundedGzip z maximumBytes response).Meets (opened z usage)
      (fun body t => Recorded usage t ∧ response.failure = none ∧ Decodes z maximumBytes response.bytes body)
      fun _ t => Recorded usage t ∧ ¬ (response.failure = none ∧ ∃ body, Decodes z maximumBytes response.bytes body) := by
  have hpieces : (Program.forEach (readGzipChunk z maximumBytes) response.pieces).Meets (opened z usage)
      (fun _ t => Follows z maximumBytes usage response.bytes t)
      fun _ t => Recorded usage t ∧ ¬ ∃ body, Decodes z maximumBytes response.bytes body := by
    refine (Program.meets_forEach (I := fun rest s => ∃ input, input ++ rest.flatten = response.bytes ∧ Follows z maximumBytes usage input s)
      ⟨[], rfl, follows_opened⟩ fun chunk rest s hs => ?_).mono (fun _ t ht => ?_) fun _ _ h => h
    · obtain ⟨input, hinput, hfollows⟩ := hs
      refine (chunk_meets hfollows chunk).mono (fun _ t ht => ⟨input ++ chunk, ?_, ht⟩) fun _ t ht => ⟨ht.1, fun hbody => ?_⟩
      · rw [List.append_assoc, ← List.flatten_cons]
        exact hinput
      · obtain ⟨body, hbody⟩ := hbody
        obtain ⟨u, hfits⟩ := hbody.fits
        rw [← hinput, List.flatten_cons, ← List.append_assoc] at hfits
        obtain ⟨first, v, hfirst⟩ := hfits.of_append
        exact ht.2 first v hfirst
    · obtain ⟨input, hinput, hfollows⟩ := ht
      rw [List.flatten_nil, List.append_nil] at hinput
      rwa [hinput] at hfollows
  rw [readBoundedGzip, forPieces]
  simp only [Program.meets_bind]
  refine hpieces.mono (fun _ t ht => ?_) fun _ t ht => ⟨ht.1, fun h => ht.2 h.2⟩
  cases hfailure : response.failure with
  | some err => exact ⟨ht.recorded, fun h => absurd h.1 (Option.some_ne_none err)⟩
  | none =>
    simp only [Program.meets_pure, Program.meets_get, Program.meets_check]
    refine ⟨fun heof => ⟨ht.recorded, trivial, ?_⟩, fun heof => ⟨ht.recorded, fun h => ?_⟩⟩
    · obtain ⟨hne, hended⟩ := ht.eof.mp heof
      obtain ⟨hrun, hwire, hdecompressed, hcallable⟩ := ht.fits hne
      refine ⟨hne, ?_, hwire, hdecompressed, hcallable⟩
      rw [Decoding.decode, hrun]
      exact if_pos hended
    · obtain ⟨-, body, hbody⟩ := h
      have hdecode := hbody.decode
      rw [Decoding.decode, ht.run] at hdecode
      have hended : z.ended t.decoder.inner = true := by
        by_contra hended
        dsimp only at hdecode
        rw [if_neg hended] at hdecode
        cases hdecode
      rw [ht.eof.mpr ⟨hbody.nonempty, hended⟩] at heof
      cases heof

theorem decode_unique {bytes body body' : List UInt8} (h : Decodes z maximumBytes bytes body) (h' : Decodes z maximumBytes bytes body') :
    body = body' := Option.some.inj (h.decode.symm.trans h'.decode)

/-- **A compressed body is read alike however it is cut**: it is returned exactly if all bytes are one complete
stream, and they and its decoding are no longer than allowed; no call of the decoder is without a limit; and
the ledger covers all that came in and all that was decoded, however the reading ends. -/
theorem readBoundedGzip_iff (z : Decoding σ UInt8 UInt8) (maximumBytes : Int) (usage : SnapshotConnectorUsage) (response : Response) :
    let done := readBoundedGzip z maximumBytes response (opened z usage)
    (∀ body, done.1 = .ok body ↔ response.failure = none ∧ Decodes z maximumBytes response.bytes body) ∧
      (∀ limit ∈ done.2.limits, 1 ≤ limit) ∧
      usage.wireBytes + done.2.received ≤ done.2.usage.wireBytes ∧
      usage.decompressedBytes + done.2.decoded ≤ done.2.usage.decompressedBytes := by
  have hmeets := gzip_meets (z := z) maximumBytes usage response
  unfold Program.Meets at hmeets
  generalize readBoundedGzip z maximumBytes response (opened z usage) = done at hmeets
  obtain ⟨r, t⟩ := done
  dsimp only
  cases r with
  | ok body =>
    obtain ⟨hrecorded, hfailure, hdecodes⟩ := hmeets
    refine ⟨fun body' => ⟨fun heq => ?_, fun h => ?_⟩, hrecorded.limits, hrecorded.wire, hrecorded.decompressed⟩
    · cases heq
      exact ⟨hfailure, hdecodes⟩
    · rw [decode_unique hdecodes h.2]
  | error err =>
    obtain ⟨hrecorded, hnot⟩ := hmeets
    exact ⟨fun body => ⟨nofun, fun h => absurd ⟨h.1, body, h.2⟩ hnot⟩, hrecorded.limits, hrecorded.wire, hrecorded.decompressed⟩

/-- A body that is not compressed is returned as it came in, and recorded like one that is. -/
theorem readBounded_plain (maximumBytes : Int) (usage : SnapshotConnectorUsage) (response : Response) {contentEncoding : String}
    (hencoding : contentEncoding ≠ "gzip") : (readBounded z maximumBytes response contentEncoding).Meets (opened z usage)
      (fun body t => Recorded usage t ∧ body = response.bytes) fun _ t => Recorded usage t := by
  have hpieces : (Program.forEach (readPlainChunk maximumBytes) response.pieces).Meets (opened z usage)
      (fun _ t => Recorded usage t ∧ t.chunks.flatten = response.bytes) fun _ t => Recorded usage t := by
    refine (Program.meets_forEach (I := fun rest s => Recorded usage s ∧ s.chunks.flatten ++ rest.flatten = response.bytes)
      ⟨recorded_opened, rfl⟩ fun chunk rest s hs => ?_).mono (fun _ t ht => ?_) fun _ _ h => h
    · have hvalid : SnapshotConnectorUsage.isValid {wireBytes := chunk.length, decompressedBytes := chunk.length} = true :=
        isValid_iff.mpr ⟨Int.natCast_nonneg _, Int.natCast_nonneg _, le_refl 0⟩
      obtain ⟨⟨hwire, hdecompressed, hlimits⟩, hchunks⟩ := hs
      have hrecorded : ∀ t : BodyReader σ, t.received = s.received + chunk.length → t.decoded = s.decoded + chunk.length →
          t.usage.wireBytes = s.usage.wireBytes + chunk.length → t.usage.decompressedBytes = s.usage.decompressedBytes + chunk.length →
          t.limits = s.limits → Recorded usage t := by
        intro t hreceived' hdecoded' hwire' hdecompressed' hlimits'
        exact ⟨by rw [hreceived', hwire']; omega, by rw [hdecoded', hdecompressed']; omega, by rw [hlimits']; exact hlimits⟩
      rw [readPlainChunk]
      simp only [Program.meets_bind, meets_receive, Program.meets_modify, meets_recordUsage hvalid, Program.meets_get,
        Program.meets_check]
      refine ⟨fun _ => ⟨hrecorded _ rfl rfl rfl rfl rfl, ?_⟩, fun _ => hrecorded _ rfl rfl rfl rfl rfl⟩
      rw [List.flatten_append, List.flatten_singleton, List.append_assoc, ← List.flatten_cons]
      exact hchunks
    · rwa [List.flatten_nil, List.append_nil] at ht
  rw [readBounded, if_neg hencoding, forPieces]
  simp only [Program.meets_bind]
  refine hpieces.mono (fun _ t ht => ?_) fun _ _ h => h
  cases response.failure with
  | some err => exact ht.1
  | none => exact ht

end Fetech.Wayback
