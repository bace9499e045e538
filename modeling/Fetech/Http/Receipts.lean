import Fetech.Http.Quiet

/-! What a call received, and that its usage is just that (`_HTTPUsage` in
`fetech/adapters/http.py`).

The receipts of a call say what the world sent, in order. `Gauge` reads from them how many
bytes came over the wire, without a look at what the call counts. A call that counts what it
received (`Counts`) still does when it ends, however it ends (`request_counts`), and what it
returns adds nothing to it. -/
namespace Fetech.Http
open Lib Lib.Url Lib.Program

/-! ### What the receipts come to -/

namespace Receipt

/-- The decoded bytes of a receipt. -/
def decoded : Receipt → List UInt8
  | .robots chunk => chunk.data
  | .page _ chunk => chunk.data
  | .whole body => body
  | _ => []

def isRedirect : Receipt → Bool
  | .redirect _ => true
  | _ => false

end Receipt

/-- The wire as the receipts tell it: `settled` are the decoded bytes of the bodies that were read
to the end, `current` those of the one being read, and `peak` the most that was seen. -/
structure Gauge where
  settled : Nat := 0
  current : Nat := 0
  peak : Nat := 0

namespace Gauge

/-- The body being read has taken `bytes` off the wire. -/
def seen (g : Gauge) (bytes : Nat) : Gauge := {g with peak := max g.peak (g.settled + bytes)}

/-- A `robots.txt` takes at least what it decodes to, a page at least what its headers announce. -/
def receive (g : Gauge) : Receipt → Gauge
  | .redirect _ => g
  | .robots chunk =>
    let current := g.current + chunk.data.length
    {g.seen (max chunk.downloaded current) with current}
  | .robotsRead => {g with settled := g.settled + g.current, current := 0}
  | .page announced chunk =>
    {g.seen (max chunk.downloaded announced) with current := g.current + chunk.data.length}
  | .ended announced downloaded => g.seen (max downloaded announced)
  | .whole body => {g.seen body.length with settled := g.settled + body.length}

end Gauge

def gauge (received : List Receipt) : Gauge := received.foldl Gauge.receive {}

@[simp] theorem gauge_snoc (received : List Receipt) (r : Receipt) :
    gauge (received ++ [r]) = (gauge received).receive r := by
  rw [gauge, List.foldl_append]
  rfl

/-- The bytes that came over the wire. -/
def wireBytes (received : List Receipt) : Nat := (gauge received).peak

/-- The bytes they decode to. -/
def decodedBytes (received : List Receipt) : Nat := (received.flatMap Receipt.decoded).length

/-- The redirects among the answers. -/
def redirectCount (received : List Receipt) : Nat := received.countP Receipt.isRedirect

theorem decodedBytes_snoc (received : List Receipt) (r : Receipt) :
    decodedBytes (received ++ [r]) = decodedBytes received + r.decoded.length := by
  simp [decodedBytes]

theorem redirectCount_snoc (received : List Receipt) (r : Receipt) :
    redirectCount (received ++ [r]) = redirectCount received + if r.isRedirect then 1 else 0 := by
  rw [redirectCount, List.countP_append, List.countP_singleton]
  rfl

/-- What was decoded is settled or being read. -/
theorem decodedBytes_eq (received : List Receipt) :
    decodedBytes received = (gauge received).settled + (gauge received).current := by
  induction received using List.reverseRecOn with
  | nil => rfl
  | append_singleton received r ih =>
    rw [decodedBytes_snoc, ih, gauge_snoc]
    cases r <;> simp only [Gauge.receive, Gauge.seen, Receipt.decoded, List.length_nil] <;> omega

/-! ### A call that counts what it receives -/

/-- The usage is what the receipts come to. -/
structure Counts (s : Exchange) : Prop where
  wire : s.usage.wireBytes = wireBytes s.received
  decompressed : s.usage.decompressedBytes = decodedBytes s.received
  redirects : s.usage.redirects = redirectCount s.received
  statuses : s.redirectStatuses.length = redirectCount s.received

/-- Bodies of `settled` bytes were read, and `current` bytes of the next. -/
structure Reading (settled current : Nat) (s : Exchange) : Prop extends Counts s where
  settled : (gauge s.received).settled = settled
  current : (gauge s.received).current = current

namespace Reading
variable {n m : Nat} {s t : Exchange}

theorem decoded (h : Reading n m s) : s.usage.decompressedBytes = n + m := by
  rw [h.decompressed, decodedBytes_eq, h.settled, h.current]

theorem of_quiet (hst : Quiet s t) (h : Reading n m s) : Reading n m t := by
  have husage : t.usage = s.usage := congrArg Meter.usage hst.meter
  have hstatuses : t.redirectStatuses = s.redirectStatuses := congrArg Meter.redirectStatuses hst.meter
  have hreceived : t.received = s.received := congrArg Meter.received hst.meter
  obtain ⟨⟨hwire, hdecompressed, hredirects, hcount⟩, hsettled, hcurrent⟩ := h
  exact ⟨⟨by rw [husage, hreceived, hwire], by rw [husage, hreceived, hdecompressed],
    by rw [husage, hreceived, hredirects], by rw [hstatuses, hreceived, hcount]⟩, by rw [hreceived, hsettled],
    by rw [hreceived, hcurrent]⟩

/-- Bytes observed are those of the receipt that comes with them. -/
theorem observed {r : Receipt} {wire decompressed settled current : Nat} (h : Reading n m s)
    (hredirect : r.isRedirect = false) (hpeak : ((gauge s.received).receive r).peak = max (gauge s.received).peak wire)
    (hsettled : ((gauge s.received).receive r).settled = settled)
    (hcurrent : ((gauge s.received).receive r).current = current) (hdecompressed : decompressed = settled + current)
    (hle : n + m ≤ decompressed) (t : Exchange) (husage : t.usage = s.usage.observeBytes wire decompressed)
    (hstatuses : t.redirectStatuses = s.redirectStatuses) (hreceived : t.received = s.received ++ [r]) :
    Reading settled current t := by
  have hcount : redirectCount t.received = redirectCount s.received := by
    rw [hreceived, redirectCount_snoc, hredirect]
    rfl
  refine ⟨⟨?_, ?_, ?_, ?_⟩, ?_, ?_⟩
  · rw [husage, wireBytes, hreceived, gauge_snoc, hpeak, ← wireBytes, ← h.wire]
    rfl
  · rw [husage, decodedBytes_eq, hreceived, gauge_snoc, hsettled, hcurrent, ← hdecompressed]
    show max s.usage.decompressedBytes decompressed = decompressed
    rw [h.decoded]
    exact Nat.max_eq_right hle
  · rw [husage, hcount]
    exact h.redirects
  · rw [hstatuses, hcount, h.statuses]
  · rw [hreceived, gauge_snoc, hsettled]
  · rw [hreceived, gauge_snoc, hcurrent]

/-- One redirect more. -/
theorem redirected (h : Reading n m s) (status : Nat) :
    Reading n m {s with
      received := s.received ++ [.redirect status]
      redirectStatuses := s.redirectStatuses ++ [status]
      usage := s.usage.observeRedirects (s.redirectStatuses.length + 1)} := by
  have hgauge : gauge (s.received ++ [.redirect status]) = gauge s.received := gauge_snoc _ _
  have hcount : redirectCount (s.received ++ [.redirect status]) = redirectCount s.received + 1 :=
    redirectCount_snoc _ _
  refine ⟨⟨?_, ?_, ?_, ?_⟩, (congrArg Gauge.settled hgauge).trans h.settled,
    (congrArg Gauge.current hgauge).trans h.current⟩
  · exact h.wire.trans (congrArg Gauge.peak hgauge).symm
  · show s.usage.decompressedBytes = _
    rw [h.decompressed, decodedBytes_eq, decodedBytes_eq, hgauge]
  · show max s.usage.redirects (s.redirectStatuses.length + 1) = _
    rw [h.redirects, h.statuses, hcount]
    exact Nat.max_eq_right (Nat.le_succ _)
  · show (s.redirectStatuses ++ [status]).length = _
    rw [hcount, List.length_append, h.statuses]
    rfl

/-- A `robots.txt` has been read. -/
theorem robotsRead (h : Reading n m s) (t : Exchange) (husage : t.usage = s.usage)
    (hstatuses : t.redirectStatuses = s.redirectStatuses) (hreceived : t.received = s.received ++ [.robotsRead]) :
    Reading (n + m) 0 t := by
  have hcount : redirectCount t.received = redirectCount s.received := by
    rw [hreceived, redirectCount_snoc]
    rfl
  refine ⟨⟨?_, ?_, ?_, ?_⟩, ?_, ?_⟩
  · rw [husage, wireBytes, hreceived, gauge_snoc, h.wire]
    rfl
  · rw [husage, hreceived, decodedBytes_snoc, h.decompressed]
    rfl
  · rw [husage, hcount, h.redirects]
  · rw [hstatuses, hcount, h.statuses]
  · rw [hreceived, gauge_snoc, ← h.settled, ← h.current]
    rfl
  · rw [hreceived, gauge_snoc]
    rfl

end Reading

theorem Quiet.reading {α : Type} {x : HttpM α} (hx : Respects Quiet x) {n m : Nat} {s : Exchange} (h : Reading n m s) :
    x.Meets s (fun _ t => Quiet s t ∧ Reading n m t) fun _ => Counts :=
  (hx.meets s).mono (fun _ _ ht => ⟨ht, h.of_quiet ht⟩) fun _ _ ht => (h.of_quiet ht).toCounts

variable (a : HttpAdapter) (call : HttpCall) (h : Hop)

/-! ### Robots -/

theorem readRobots_counts (maximumBytes : Int) (chunks : List Chunk) (body : List UInt8) {n : Nat} (s : Exchange)
    (hs : Reading n body.length s) :
    (readRobots n maximumBytes chunks body).Meets s
      (fun read t => Reading n read.length t ∧ t.auxiliaryBytes = s.auxiliaryBytes) fun _ => Counts := by
  induction chunks generalizing body s with
  | nil => exact ⟨hs, rfl⟩
  | cons chunk rest ih =>
    simp only [readRobots, meets_bind, meets_modify, meets_check]
    have hread : Reading n (body ++ chunk.data).length {s with
        received := s.received ++ [.robots chunk]
        usage := s.usage.observeBytes (n + max chunk.downloaded (body ++ chunk.data).length)
          (n + (body ++ chunk.data).length)} := by
      refine hs.observed (r := .robots chunk) rfl ?_ hs.settled ?_ rfl ?_ _ rfl rfl rfl
      · simp only [Gauge.receive, Gauge.seen, hs.settled, hs.current, List.length_append]
      · simp only [Gauge.receive, hs.current, List.length_append]
      · rw [List.length_append]
        omega
    exact ⟨fun _ => ih _ _ hread, fun _ => hread.toCounts⟩

theorem robotsFailed_counts {α : Type} {n m : Nat} (err : HttpError) (s : Exchange) (hs : Reading n m s)
    (Q : α → Exchange → Prop) : (robotsFailed err : HttpM α).Meets s Q fun _ => Counts := by
  cases err with
  | transport typeName timeout =>
    exact (meets_bind _ _).mpr ((Quiet.reading (Quiet.recordOutcome _ _ _ _) hs).mono
      (fun _ _ ht => ht.2.toCounts) fun _ _ ht => ht)
  | _ => exact hs.toCounts

theorem weighRobots_counts (robotsUrl target : String) (maximumBytes : Int) (response : Response) (s : Exchange)
    (hs : Reading s.auxiliaryBytes 0 s) :
    (weighRobots a robotsUrl target maximumBytes response).Meets s
      (fun bytes t => Reading s.auxiliaryBytes bytes t ∧ t.auxiliaryBytes = s.auxiliaryBytes) fun _ => Counts := by
  rw [weighRobots, meets_ite]
  refine ⟨fun _ => ?_, fun _ => ?_⟩
  · have hquiet : Respects Quiet (do
        let destination ← sanitized a target
        let status := toString response.status
        recordDecision {
          policyId := "robots_policy_check", allowed := true
          reason := "robots.txt returned HTTP " ++ status ++ "; policy allowed retrieval"
          destination := some destination}
        recordOutcome "robots_policy_check" .applied "security"
          [("status_code", .int response.status), ("allowed", .flag true)]) :=
      .bind (Quiet.sanitized a target) fun _ => .bind (Quiet.recordDecision _) fun _ => Quiet.recordOutcome _ _ _ _
    have hmeets := Quiet.reading hquiet hs
    simp only [meets_bind] at hmeets ⊢
    refine hmeets.mono (fun destination t ht => ?_) fun _ _ ht => ht
    refine ht.mono (fun _ u hu => ?_) fun _ _ hu => hu
    exact hu.mono (fun _ v hv => ⟨hv.2, congrArg Meter.auxiliaryBytes hv.1.meter⟩) fun _ _ hv => hv
  · simp only [meets_bind, meets_get]
    refine (readRobots_counts maximumBytes response.chunks [] s hs).mono ?_ fun _ _ ht => ht
    rintro body t ⟨hread, hauxiliary⟩
    split
    · exact robotsFailed_counts _ t hread _
    · rw [meets_bind]
      refine (Quiet.reading (judgeRobots_quiet a robotsUrl target body) hread).mono ?_ fun _ _ hu => hu
      rintro _ u ⟨hquiet, hu⟩
      exact ⟨hu, (congrArg Meter.auxiliaryBytes hquiet.meter).trans hauxiliary⟩

/-- What a request changes beside the wire leaves the counts alone. -/
theorem Reading.of_eq {n m : Nat} {s t : Exchange} (hs : Reading n m s) (husage : t.usage = s.usage)
    (hstatuses : t.redirectStatuses = s.redirectStatuses) (hreceived : t.received = s.received) : Reading n m t := by
  obtain ⟨⟨hwire, hdecompressed, hredirects, hcount⟩, hsettled, hcurrent⟩ := hs
  exact ⟨⟨by rw [husage, hreceived, hwire], by rw [husage, hreceived, hdecompressed],
    by rw [husage, hreceived, hredirects], by rw [hstatuses, hreceived, hcount]⟩, by rw [hreceived, hsettled],
    by rw [hreceived, hcurrent]⟩

theorem enforceRobots_counts (origin : String) (maximumBytes : Int) (s : Exchange) (hs : Reading s.auxiliaryBytes 0 s) :
    (enforceRobots a h origin maximumBytes).Meets s
      (fun bytes t => Reading s.auxiliaryBytes bytes t ∧ t.auxiliaryBytes = s.auxiliaryBytes) fun _ => Counts := by
  simp only [enforceRobots, meets_bind, meets_check, meets_modify]
  refine ⟨fun _ => ?_, fun _ => hs.toCounts⟩
  split
  · refine robotsFailed_counts (n := s.auxiliaryBytes) (m := 0) _ _ ?_ _
    exact hs.of_eq rfl rfl rfl
  · simp only [meets_bind, meets_modify, meets_get]
    refine weighRobots_counts a _ _ maximumBytes _ _ ?_
    exact hs.of_eq rfl rfl rfl

theorem checkRobots_counts (s : Exchange) (hs : Reading s.auxiliaryBytes 0 s) :
    (checkRobots a h).Meets s (fun _ t => Reading t.auxiliaryBytes 0 t) fun _ => Counts := by
  simp only [checkRobots, splitUrl, meets_bind, meets_get, meets_ofOption, meets_ite, meets_modify, meets_pure]
  refine ⟨fun parts _ => ⟨fun _ => ?_, fun _ => hs⟩, fun _ => hs.toCounts⟩
  refine (enforceRobots_counts a h _ _ _ ?_).mono ?_ fun _ _ ht => ht
  · exact hs.of_eq rfl rfl rfl
  rintro bytes t ⟨hread, hauxiliary⟩
  have hdone := hread.robotsRead {t with
    auxiliaryBytes := t.auxiliaryBytes + bytes, received := t.received ++ [.robotsRead]} rfl rfl rfl
  rw [← hauxiliary] at hdone
  exact hdone

/-! ### The page -/

theorem HttpUsage.observeRedirects_of_le {u : HttpUsage} {redirects : Nat} (h : redirects ≤ u.redirects) :
    u.observeRedirects redirects = u := by
  rw [observeRedirects, Nat.max_eq_left h]

/-- The redirects of a call were counted when they were met. -/
theorem Counts.observeBody_usage {s : Exchange} (hs : Counts s) (wireSize decompressedSize : Nat) :
    (observeBody s wireSize decompressedSize).usage =
      s.usage.observeBytes (wireSize + s.auxiliaryBytes) (decompressedSize + s.auxiliaryBytes) := by
  refine HttpUsage.observeRedirects_of_le ?_
  show s.redirectStatuses.length ≤ s.usage.redirects
  rw [hs.statuses, hs.redirects]

theorem readBody_counts (announced : Nat) (chunks : List Chunk) (body : List UInt8) (s : Exchange)
    (hs : Reading s.auxiliaryBytes body.length s) :
    (readBody announced chunks body).Meets s
      (fun read t => Reading t.auxiliaryBytes read.length t) fun _ => Counts := by
  induction chunks generalizing body s with
  | nil => exact hs
  | cons chunk rest ih =>
    simp only [readBody, meets_bind, meets_modify, meets_get, meets_check]
    have hread : Reading s.auxiliaryBytes (body ++ chunk.data).length
        {observeBody s (max chunk.downloaded announced) (body ++ chunk.data).length with
          received := s.received ++ [.page announced chunk]} := by
      refine hs.observed (r := .page announced chunk) rfl ?_ hs.settled ?_ ?_ ?_ _
        (hs.observeBody_usage _ _) rfl rfl
      · simp only [Gauge.receive, Gauge.seen, hs.settled, Nat.add_comm]
      · simp only [Gauge.receive, hs.current, List.length_append]
      · exact Nat.add_comm _ _
      · rw [List.length_append]
        omega
    exact ⟨fun _ => ⟨fun _ => ih _ _ hread, fun _ => hread.toCounts⟩, fun _ => hread.toCounts⟩

/-- What a call returns is in its usage. -/
structure Summed (result : HttpResult) (s : Exchange) : Prop extends Counts s where
  wire_le : result.wireBytes ≤ s.usage.wireBytes
  decompressed_le : result.body.length + result.auxiliaryBytes ≤ s.usage.decompressedBytes
  redirects_le : result.redirectStatuses.length ≤ s.usage.redirects

theorem finish_counts (response : Response) (s : Exchange) (hs : Reading s.auxiliaryBytes 0 s) :
    (finish call response).Meets s Summed fun _ => Counts := by
  simp only [finish, meets_bind, meets_ofExcept, meets_get, meets_check, meets_modify, meets_when, meets_pure]
  refine ⟨fun announced _ => ⟨fun _ => ?_, fun _ => hs.toCounts⟩, fun _ _ => hs.toCounts⟩
  refine (readBody_counts _ response.chunks [] s hs).mono ?_ fun _ _ ht => ht
  intro body t ht
  have hended : Reading t.auxiliaryBytes body.length
      {observeBody t (max response.downloaded (announced.getD 0)) body.length with
        received := t.received ++ [.ended (announced.getD 0) response.downloaded]} := by
    refine ht.observed (r := .ended (announced.getD 0) response.downloaded) rfl ?_ ht.settled ht.current
      (Nat.add_comm _ _) (Nat.add_comm _ _).le _ (ht.observeBody_usage _ _) rfl rfl
    simp only [Gauge.receive, Gauge.seen, ht.settled, Nat.add_comm]
  have hwire : max response.downloaded (announced.getD 0) + t.auxiliaryBytes ≤
      (observeBody t (max response.downloaded (announced.getD 0)) body.length).usage.wireBytes := by
    rw [ht.observeBody_usage]
    exact Nat.le_max_right _ _
  have hdecompressed : body.length + t.auxiliaryBytes ≤
      (observeBody t (max response.downloaded (announced.getD 0)) body.length).usage.decompressedBytes := by
    rw [ht.observeBody_usage]
    exact Nat.le_max_right _ _
  have hredirects : t.redirectStatuses.length ≤
      (observeBody t (max response.downloaded (announced.getD 0)) body.length).usage.redirects := by
    rw [ht.observeBody_usage, ht.statuses, ← ht.redirects]
    exact le_rfl
  exact ⟨fun _ _ => ⟨fun _ => ⟨⟨hended.wire, hended.decompressed, hended.redirects, hended.statuses⟩, hwire,
      hdecompressed, hredirects⟩,
    fun _ => ⟨hended.toCounts, hwire, hdecompressed, hredirects⟩⟩, fun _ _ => ht.toCounts⟩

/-! ### The loop -/

/-- Between two turns the bodies of the earlier ones are settled. -/
def Landed (count : Exchange → Nat) : Option HttpResult → Exchange → Prop
  | none, s => Reading (count s) 0 s
  | some result, s => Summed result s

theorem followRedirect_counts (response : Response) (s : Exchange) (hs : Reading s.auxiliaryBytes 0 s) :
    (followRedirect a call h response).Meets s (fun _ t => Reading t.auxiliaryBytes 0 t) fun _ => Counts := by
  have hmoved := hs.redirected response.status
  simp only [followRedirect, meets_bind, meets_modify, meets_get, meets_ofOption]
  refine ⟨fun location _ => ⟨fun joined _ => ?_, fun _ => hmoved.toCounts⟩, fun _ => hmoved.toCounts⟩
  refine (Quiet.reading (redirectTo_quiet a call h response (String.ofList joined)) hmoved).mono ?_ fun _ _ ht => ht
  rintro _ t ⟨hquiet, ht⟩
  have hauxiliary : t.auxiliaryBytes = s.auxiliaryBytes := congrArg Meter.auxiliaryBytes hquiet.meter
  rw [hauxiliary]
  exact ht

/-- A quiet step between bodies. -/
theorem Quiet.settled {α : Type} {x : HttpM α} (hx : Respects Quiet x) {s : Exchange}
    (hs : Reading s.auxiliaryBytes 0 s) : x.Meets s (fun _ t => Reading t.auxiliaryBytes 0 t) fun _ => Counts := by
  refine (Quiet.reading hx hs).mono ?_ fun _ _ ht => ht
  rintro _ t ⟨hquiet, ht⟩
  have hauxiliary : t.auxiliaryBytes = s.auxiliaryBytes := congrArg Meter.auxiliaryBytes hquiet.meter
  rw [hauxiliary]
  exact ht

theorem handleResponse_counts (credentialApplied : Bool) (response : Response) (s : Exchange)
    (hs : Reading s.auxiliaryBytes 0 s) :
    (handleResponse a call h credentialApplied response).Meets s (Landed (·.auxiliaryBytes)) fun _ => Counts := by
  rw [handleResponse, meets_bind, meets_get, meets_ite]
  refine ⟨fun _ => ?_, fun _ => (meets_ite _ _ _).mpr ⟨fun _ => hs.toCounts, fun _ => ?_⟩⟩
  · exact (meets_bind _ _).mpr (followRedirect_counts a call h response s hs)
  split
  · exact (meets_bind _ _).mpr (Quiet.settled (retryExpired_quiet a h _) hs)
  · simp only [meets_ite, meets_bind]
    exact ⟨fun _ => hs.toCounts, fun _ => ⟨fun _ => hs.toCounts, fun _ => finish_counts call response s hs⟩⟩

theorem hop_counts (s : Exchange) (hs : Reading s.auxiliaryBytes 0 s) :
    (hop a call h).Meets s (Landed (·.auxiliaryBytes)) fun _ => Counts := by
  simp only [hop, exchangeCurrent, meets_bind]
  refine (Quiet.settled (arrive_quiet a call h) hs).mono (fun _ t ht => ?_) fun _ _ ht => ht
  refine (checkRobots_counts a h t ht).mono (fun robotsFetched u hu => ?_) fun _ _ hu => hu
  refine (Quiet.settled (recordRateLimit_quiet a) hu).mono (fun _ v hv => ?_) fun _ _ hv => hv
  refine (Quiet.settled (applyCredential_quiet a) hv).mono ?_ fun _ _ hw => hw
  rintro ⟨headers, credentialApplied⟩ w hw
  refine (Quiet.settled (applyCookies_quiet a call headers) hw).mono ?_ fun _ _ hx => hx
  rintro ⟨headers, cookies⟩ x hx
  refine (Quiet.settled (sendRequest_quiet h robotsFetched headers cookies) hx).mono (fun response y hy => ?_)
    fun _ _ hy => hy
  exact handleResponse_counts a call h credentialApplied response y hy

theorem hops_counts {turn : Hop → HttpM (Option HttpResult)} {count : Exchange → Nat}
    (hturn : ∀ h s, Reading (count s) 0 s → (turn h).Meets s (Landed count) fun _ => Counts) (n : Nat)
    (world : Nat → Hop) (s : Exchange) (hs : Reading (count s) 0 s) :
    (hops turn n world).Meets s Summed fun _ => Counts := by
  induction n generalizing world s with
  | zero => exact hs.toCounts
  | succ n ih =>
    rw [hops, meets_bind]
    refine (hturn (world 0) s hs).mono ?_ fun _ _ ht => ht
    intro result t ht
    cases result with
    | none => exact ih _ t ht
    | some result => exact ht

/-! ### HTTP/3 -/

theorem handleHttp3_counts (result : Http3Response) (s : Exchange) (hs : Reading s.transferred 0 s) :
    (handleHttp3 a result).Meets s (Landed (·.transferred)) fun _ => Counts := by
  have hread : Reading (s.transferred + result.body.length) 0 {s with
      received := s.received ++ [.whole result.body]
      transferred := s.transferred + result.body.length
      usage := s.usage.observeBytes (s.transferred + result.body.length) (s.transferred + result.body.length)} := by
    have hle : s.transferred + 0 ≤ s.transferred + result.body.length := Nat.add_le_add_left (Nat.zero_le _) _
    refine hs.observed (r := .whole result.body) rfl ?_ ?_ hs.current rfl hle _ rfl rfl rfl
    · simp only [Gauge.receive, Gauge.seen, hs.settled]
    · simp only [Gauge.receive, Gauge.seen, hs.settled, Nat.add_eq]
  have hmoved := hread.redirected result.status
  simp only [handleHttp3, meets_bind, meets_modify, meets_get, meets_check, meets_ite, meets_ofOption, meets_raise,
    meets_pure]
  refine ⟨fun _ => ⟨fun _ => ⟨fun _ => ⟨fun joined _ => ?_, fun _ => hmoved.toCounts⟩, fun _ => hmoved.toCounts⟩,
    fun _ => ⟨fun _ => hread.toCounts, fun _ => ⟨fun _ => hread.toCounts, fun _ => ⟨fun _ => hread.toCounts,
      fun _ => ?_⟩⟩⟩⟩, fun _ => hread.toCounts⟩
  · exact hmoved.of_eq rfl rfl rfl
  · refine ⟨hread.toCounts, Nat.le_max_right _ _, ?_, ?_⟩
    · exact (Nat.le_add_left _ _).trans (Nat.le_max_right _ _)
    · exact (hread.statuses.trans hread.redirects.symm).le

theorem hopHttp3_counts (s : Exchange) (hs : Reading s.transferred 0 s) :
    (hopHttp3 a h).Meets s (Landed (·.transferred)) fun _ => Counts := by
  have hquiet : Respects Quiet (do
      takeSlot a h
      evaluateCurrent a h
      enterHttp3 a
      recordRateLimit a) :=
    .bind (takeSlot_quiet a h) fun _ => .bind (evaluateCurrent_quiet a h) fun _ =>
      .bind (enterHttp3_quiet a) fun _ => recordRateLimit_quiet a
  have hmeets := Quiet.reading hquiet hs
  simp only [hopHttp3, meets_bind, meets_get, meets_check] at hmeets ⊢
  refine hmeets.mono (fun _ t ht => ?_) fun _ _ ht => ht
  refine ht.mono (fun _ t ht => ?_) fun _ _ ht => ht
  refine ht.mono (fun _ t ht => ?_) fun _ _ ht => ht
  refine ht.mono ?_ fun _ _ ht => ht
  rintro _ t ⟨hst, ht⟩
  have htransferred : t.transferred = s.transferred := congrArg Meter.transferred hst.meter
  rw [← htransferred] at ht
  refine ⟨fun _ => ?_, fun _ => ht.toCounts⟩
  refine (Quiet.reading (Quiet.withinDeadline h.publisherElapsed) ht).mono ?_ fun _ _ hu => hu
  rintro _ u ⟨htu, hu⟩
  refine (Quiet.reading (sendHttp3_quiet a h) hu).mono ?_ fun _ _ hv => hv
  rintro result v ⟨huv, hv⟩
  have hsame : v.transferred = t.transferred :=
    (congrArg Meter.transferred huv.meter).trans (congrArg Meter.transferred htu.meter)
  rw [← hsame] at hv
  exact handleHttp3_counts a result v hv

/-! ### The call -/

/-- Nothing has come over the wire yet. -/
structure Unread (s : Exchange) : Prop where
  usage : s.usage = {}
  redirectStatuses : s.redirectStatuses = []
  received : s.received = []
  auxiliaryBytes : s.auxiliaryBytes = 0
  transferred : s.transferred = 0

theorem unread_initial (ctx : ExecutionContext) (validated : ValidatedAddresses) :
    Unread (.initial ctx validated call) := ⟨rfl, rfl, rfl, rfl, rfl⟩

theorem Unread.reading {s : Exchange} (hs : Unread s) : Reading 0 0 s := by
  refine ⟨⟨?_, ?_, ?_, ?_⟩, ?_, ?_⟩
  · rw [hs.usage, hs.received]
    rfl
  · rw [hs.usage, hs.received]
    rfl
  · rw [hs.usage, hs.received]
    rfl
  · rw [hs.redirectStatuses, hs.received]
    rfl
  · rw [hs.received]
    rfl
  · rw [hs.received]
    rfl

/-- **A call counts what it receives**: however it ends, its usage is what the receipts come to, and
what it returns is in it. -/
theorem request_counts (world : World) (s : Exchange) (hs : Unread s) :
    (request a call world).Meets s Summed fun _ => Counts := by
  have hread := hs.reading
  simp only [request, meets_bind, meets_check, meets_get, meets_ite]
  refine ⟨fun _ => ⟨fun _ => ⟨fun _ => ?_, fun _ => hread.toCounts⟩, fun _ => ?_⟩, fun _ => hread.toCounts⟩
  · simp only [prepareHttp3, meets_bind, meets_get, meets_check, meets_modify]
    refine ⟨fun _ => ⟨fun _ => ?_, fun _ => hread.toCounts⟩, fun _ => hread.toCounts⟩
    refine hops_counts (fun h s => hopHttp3_counts a h s) _ _ _ ?_
    rw [hs.transferred]
    exact hread.of_eq rfl rfl rfl
  · simp only [prepare, withinDeadline, meets_bind, meets_get, meets_check, meets_ofExcept, meets_modify]
    refine ⟨fun _ => ⟨fun _ => ⟨fun _ _ => ⟨fun _ => ⟨fun _ => ?_, fun _ => hread.toCounts⟩, fun _ => hread.toCounts⟩,
      fun _ _ => hread.toCounts⟩, fun _ => hread.toCounts⟩, fun _ => hread.toCounts⟩
    refine hops_counts (fun h s => hop_counts a call h s) _ _ _ ?_
    rw [hs.auxiliaryBytes]
    exact hread.of_eq rfl rfl rfl

end Fetech.Http
