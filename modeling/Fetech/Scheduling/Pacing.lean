import Mathlib.Data.List.TakeWhile
import Fetech.Scheduling.Capacity

/-! Starts of one host are paced, whatever the history forgets.

The code keeps of every start only the last one of its host, forgets those whose
interval has passed, and lets no new host in while the history is full of others.
The log kept here is the whole story: every admission with the clock reading of its
turn, in order. `Paced` says what the dictionary is of that log, its last starts in
order without an initial part, and that whatever is missing is old enough. A host
that is not in the history may start for that reason and no other. -/
namespace Fetech.Scheduling
open Lib (Dict)

variable {T : Type} [LinearOrder T] [Add T] [Zero T] (L : Limits T)

/-! ### Admissions -/

/-- The waiters one `_pump` admits and the reading each is admitted at, turn by turn
of `pumpLoop`. -/
def loopAdmissions (clock : Nat → T) : Nat → Nat → State T → List (Waiter × T)
  | 0, _, _ => []
  | fuel + 1, turn, s =>
    if s.activeGlobal < L.globalConcurrency then
      match s.waiters with
      | [] => []
      | _ :: _ =>
        let s := pruneHostHistory L (clock turn) s
        match nextEligibleWaiter L s (clock turn) with
        | (none, _) => []
        | (some index, _) =>
          match s.waiters[index]? with
          | some w => (w, clock turn) :: loopAdmissions clock fuel (turn + 1) (grant L (clock turn) index w s)
          | none => []
    else []

def pumpAdmissions (clock : Nat → T) (s : State T) : List (Waiter × T) :=
  let s := discardCancelledWaiters {s with wakeHandle := none}
  loopAdmissions L clock s.waiters.length 0 s

/-- The state `_release` pumps, where it does not raise. -/
def releasePoint (host : String) (loop : Nat) (s : State T) : Option (State T) :=
  if s.activeGlobal = 0 ∨ s.activeByHost.getD host 0 = 0 then none else eventLoop loop (vacate host s)

/-- Whether an action pumps, with which readings and from which state. -/
def pumpPoint (s : State T) : Action T → Option ((Nat → T) × State T)
  | .request host loop deadline clock =>
    if deadline ≤ 0 then none
    else (eventLoop loop s).map fun s => (clock, {s with
      requests := s.requests ++ [{host, loop}]
      waiters := s.waiters ++ [⟨s.requests.length, host⟩]})
  | .resume id clock => do
    let r ← s.requests[id]?
    if r.stage = .waiting then
      match r.future with
      | .pending => none
      | .result =>
        if r.mustCancel then (releasePoint r.host r.loop (setStage id .ended s)).map (clock, ·) else none
      | .cancelled => some (clock, discardWaiter id (setStage id .ended s))
    else none
  | .cancel _ => none
  | .release id clock => do
    let r ← s.requests[id]?
    if r.stage = .holding then (releasePoint r.host r.loop (setStage id .ended s)).map (clock, ·) else none
  | .wake clock => s.wakeHandle.map fun _ => (clock, {s with wakeHandle := none})

def admissions (s : State T) (a : Action T) : List (Waiter × T) :=
  match pumpPoint s a with
  | some (clock, u) => pumpAdmissions L clock u
  | none => []

/-- Every admission of a run, in order. -/
def history (s : State T) : List (Action T) → List (Waiter × T)
  | [] => []
  | a :: rest =>
    admissions L s a ++ match step L s a with
      | some t => history t rest
      | none => []

/-- An admission as the history of starts records it. -/
def start (e : Waiter × T) : String × T := (e.1.host, e.2)

/-- An admitted waiter's future has its result. -/
def settle (requests : List Request) (e : Waiter × T) : List Request :=
  requests.modify e.1.id fun r => {r with future := .result}

variable {L}

/-- What a pump can do, turn by turn: stop, sleep until a host is ready, or admit a
waiter that `_next_eligible_waiter` selects in the pruned state and go on. -/
theorem pumpLoop_rule {P : Nat → State T → State T → List (Waiter × T) → Prop} (clock : Nat → T)
    (stop : ∀ turn s, P turn s s [])
    (sleep : ∀ turn s wakeAt, P turn s {pruneHostHistory L (clock turn) s with wakeHandle := wakeAt} [])
    (enter : ∀ turn s index wakeAt w t log,
      nextEligibleWaiter L (pruneHostHistory L (clock turn) s) (clock turn) = (some index, wakeAt) →
      (pruneHostHistory L (clock turn) s).waiters[index]? = some w →
      P (turn + 1) (grant L (clock turn) index w (pruneHostHistory L (clock turn) s)) t log →
      P turn s t ((w, clock turn) :: log))
    (fuel turn : Nat) (s : State T) :
    P turn s (pumpLoop L clock fuel turn s) (loopAdmissions L clock fuel turn s) := by
  induction fuel generalizing turn s with
  | zero => exact stop turn s
  | succ fuel ih =>
    unfold pumpLoop loopAdmissions
    by_cases hroom : s.activeGlobal < L.globalConcurrency
    · rw [if_pos hroom, if_pos hroom]
      cases hwaiters : s.waiters with
      | nil => exact stop turn s
      | cons first others =>
        dsimp only
        cases hnext : nextEligibleWaiter L (pruneHostHistory L (clock turn) s) (clock turn) with
        | mk selected wakeAt =>
          cases selected with
          | none => exact sleep turn s wakeAt
          | some index =>
            obtain ⟨w, -, hw, -⟩ := nextEligibleFrom_room _ _ _ _ _ hnext
            rw [Nat.sub_zero] at hw
            dsimp only
            rw [hw]
            exact enter turn s index wakeAt w _ _ hnext hw (ih _ _)
    · rw [if_neg hroom, if_neg hroom]
      exact stop turn s

/-- Pruning touches the history of starts only. -/
theorem pruneHostHistory_eq (now : T) (s : State T) :
    ∃ kept, pruneHostHistory L now s = {s with lastStartedAt := kept} := by
  unfold pruneHostHistory
  split
  · exact ⟨_, rfl⟩
  · exact ⟨_, rfl⟩

/-- The admissions are the futures the pump sets, no more and no others; the pump never
leaves its loop. -/
theorem pump_admits (clock : Nat → T) (s : State T) :
    (pump L clock s).requests = (pumpAdmissions L clock s).foldl settle s.requests ∧
      (pump L clock s).loop = s.loop := by
  refine pumpLoop_rule (P := fun _ s t log => t.requests = log.foldl settle s.requests ∧ t.loop = s.loop)
    clock (fun _ s => ⟨rfl, rfl⟩) ?_ ?_ _ 0 (discardCancelledWaiters {s with wakeHandle := none})
  · intro turn s wakeAt
    obtain ⟨kept, hprune⟩ := pruneHostHistory_eq (L := L) (clock turn) s
    rw [hprune]
    exact ⟨rfl, rfl⟩
  · intro turn s index wakeAt w t log _ _ ih
    obtain ⟨kept, hprune⟩ := pruneHostHistory_eq (L := L) (clock turn) s
    rw [hprune] at ih
    exact ih

/-! ### Steps -/

/-- Every call runs on this event loop, and so does the scheduler once it is bound. -/
structure OnLoop (l : Nat) (s : State T) : Prop where
  bound : s.loop = none ∨ s.loop = some l
  calls : ∀ r ∈ s.requests, r.loop = l

/-- The actions a run on one event loop consists of. -/
def Action.onLoop (l : Nat) : Action T → Prop
  | .request _ loop _ _ => loop = l
  | _ => True

omit [LinearOrder T] [Add T] [Zero T] in
theorem OnLoop.eventLoop {l : Nat} {s : State T} (h : OnLoop l s) :
    eventLoop l s = some {s with loop := some l} := by
  unfold Scheduling.eventLoop
  obtain hl | hl := h.bound
  · rw [hl]
  · simp only [hl, if_true]
    rw [← hl]

omit [LinearOrder T] [Add T] [Zero T] in
theorem OnLoop.congr {l : Nat} {s t : State T} (h : OnLoop l s) (hloop : t.loop = s.loop ∨ t.loop = some l)
    (hcalls : ∀ r ∈ t.requests, r.loop = l) : OnLoop l t := by
  refine ⟨?_, hcalls⟩
  obtain hloop | hloop := hloop
  · rw [hloop]
    exact h.bound
  · exact .inr hloop

omit [LinearOrder T] [Add T] [Zero T] in
theorem onLoop_modify {l id : Nat} {requests : List Request} {f : Request → Request} (hf : ∀ r, (f r).loop = r.loop)
    (h : ∀ r ∈ requests, r.loop = l) : ∀ r ∈ requests.modify id f, r.loop = l := by
  have hmap : (requests.modify id f).map Request.loop = requests.map Request.loop :=
    Lib.Lists.map_modify_of_same hf requests id
  intro r hr
  have hmem := List.mem_map_of_mem (f := Request.loop) hr
  rw [hmap] at hmem
  obtain ⟨q, hq, hloop⟩ := List.mem_map.mp hmem
  exact hloop ▸ h q hq

theorem OnLoop.pumped {l : Nat} {s : State T} (h : OnLoop l s) (clock : Nat → T) : OnLoop l (pump L clock s) := by
  obtain ⟨hrequests, hloop⟩ := pump_admits (L := L) clock s
  have hcalls : ∀ (log : List (Waiter × T)) requests, (∀ r ∈ requests, r.loop = l) →
      ∀ r ∈ log.foldl settle requests, r.loop = l := by
    intro log
    induction log with
    | nil => exact fun _ h => h
    | cons e rest ih => exact fun requests h => ih _ (onLoop_modify (fun _ => rfl) h)
  exact h.congr (.inl hloop) (hrequests ▸ hcalls _ _ h.calls)

/-- The clock an action reads: a cancellation reads none. -/
def Action.clock : Action T → Option (Nat → T)
  | .request _ _ _ clock | .resume _ clock | .release _ clock | .wake clock => some clock
  | .cancel _ => none

/-- What a step does to the starts on record, on one event loop: it leaves them, or pumps
once with its own readings. -/
structure Pumps (L : Limits T) (s : State T) (a : Action T) (t : State T) (clock : Nat → T) (u : State T) : Prop where
  point : pumpPoint s a = some (clock, u)
  reads : a.clock = some clock
  before : u.lastStartedAt = s.lastStartedAt
  after : t.lastStartedAt = (pump L clock u).lastStartedAt

/-- An action that releases pumps where the release does. -/
theorem endReleasing_pumps {l : Nat} {s : State T} (h : OnLoop l s) {a : Action T} {clock : Nat → T} {id : Nat}
    {r : Request} (hr : r.loop = l) (hreads : a.clock = some clock)
    (hpoint : pumpPoint s a = (releasePoint r.host r.loop (setStage id .ended s)).map (clock, ·)) :
    OnLoop l (endReleasing L clock id r s) ∧
    ((pumpPoint s a = none ∧ (endReleasing L clock id r s).lastStartedAt = s.lastStartedAt) ∨
      ∃ clock' u, Pumps L s a (endReleasing L clock id r s) clock' u) := by
  have hended : OnLoop l (setStage id .ended s) := h.congr (.inl rfl) (onLoop_modify (fun _ => rfl) h.calls)
  have hvacated : OnLoop l (vacate r.host (setStage id .ended s)) := hended.congr (.inl rfl) hended.calls
  have hbound := hvacated.eventLoop
  unfold releasePoint at hpoint
  unfold endReleasing release
  by_cases hempty : (setStage id .ended s).activeGlobal = 0 ∨
      (setStage id .ended s).activeByHost.getD r.host 0 = 0
  · rw [if_pos hempty] at hpoint ⊢
    exact ⟨hended.congr (.inl rfl) hended.calls, .inl ⟨hpoint, rfl⟩⟩
  · rw [if_neg hempty, hr, hbound] at hpoint
    rw [if_neg hempty, hr, hbound]
    have hpumped : OnLoop l {vacate r.host (setStage id .ended s) with loop := some l} :=
      hvacated.congr (.inr rfl) hvacated.calls
    exact ⟨hpumped.pumped clock, .inr ⟨clock, _, hpoint, hreads, rfl, rfl⟩⟩

theorem step_pumps {l : Nat} {s t : State T} {a : Action T} (h : OnLoop l s) (ha : a.onLoop l)
    (ht : step L s a = some t) :
    OnLoop l t ∧ ((pumpPoint s a = none ∧ t.lastStartedAt = s.lastStartedAt) ∨
      ∃ clock u, Pumps L s a t clock u) := by
  cases a with
  | request host loop deadline clock =>
    obtain rfl : loop = l := ha
    have hcalls : ∀ stage, ∀ r ∈ s.requests ++ [{host, loop, stage := stage}], r.loop = loop := by
      intro stage r hr
      obtain hr | hr := List.mem_append.mp hr
      · exact h.calls r hr
      · rw [List.mem_singleton.mp hr]
    simp only [step] at ht
    split at ht
    · rename_i hdeadline
      cases ht
      exact ⟨h.congr (.inl rfl) (hcalls .ended), .inl ⟨if_pos hdeadline, rfl⟩⟩
    · rename_i hdeadline
      cases ht
      have hjoined : OnLoop loop {s with
          loop := some loop
          requests := s.requests ++ [{host, loop}]
          waiters := s.waiters ++ [⟨s.requests.length, host⟩]} := h.congr (.inr rfl) (hcalls .waiting)
      have hpumped := hjoined.pumped (L := L) clock
      have hpoint : pumpPoint s (.request host loop deadline clock) = some (clock, {s with
          loop := some loop
          requests := s.requests ++ [{host, loop}]
          waiters := s.waiters ++ [⟨s.requests.length, host⟩]}) := by
        simp only [pumpPoint, if_neg hdeadline, h.eventLoop, Option.map_some]
      unfold join
      rw [h.eventLoop]
      dsimp only
      split
      · exact ⟨hpumped.congr (.inl rfl) (onLoop_modify (fun _ => rfl) hpumped.calls),
          .inr ⟨clock, _, hpoint, rfl, rfl, rfl⟩⟩
      · exact ⟨hpumped, .inr ⟨clock, _, hpoint, rfl, rfl, rfl⟩⟩
  | resume id clock =>
    simp only [step, Option.bind_eq_bind, Option.bind_eq_some_iff] at ht
    obtain ⟨r, hr, ht⟩ := ht
    have hloop := h.calls r (List.mem_of_getElem? hr)
    have hstaged : ∀ stage, OnLoop l (setStage id stage s) := fun stage =>
      h.congr (.inl rfl) (onLoop_modify (fun _ => rfl) h.calls)
    split at ht
    · rename_i hs
      have hpoint : pumpPoint s (.resume id clock) = match r.future with
          | .pending => none
          | .result =>
            if r.mustCancel then (releasePoint r.host r.loop (setStage id .ended s)).map (clock, ·) else none
          | .cancelled => some (clock, discardWaiter id (setStage id .ended s)) := by
        simp only [pumpPoint, hr, Option.bind_eq_bind, Option.bind_some, if_pos hs]
      cases hf : r.future with
      | pending => simp [resume, hf] at ht
      | result =>
        simp only [resume, hf] at ht hpoint
        split at ht
        · rename_i hcancel
          cases ht
          rw [if_pos hcancel] at hpoint
          exact endReleasing_pumps h hloop rfl hpoint
        · rename_i hcancel
          cases ht
          rw [if_neg hcancel] at hpoint
          exact ⟨hstaged .holding, .inl ⟨hpoint, rfl⟩⟩
      | cancelled =>
        simp only [resume, hf, Option.some.injEq] at ht hpoint
        subst ht
        have hended := hstaged .ended
        have hout : OnLoop l (discardWaiter id (setStage id .ended s)) := hended.congr (.inl rfl) hended.calls
        exact ⟨hout.pumped clock, .inr ⟨clock, _, hpoint, rfl, rfl, rfl⟩⟩
    · cases ht
  | cancel id =>
    simp only [step, Option.bind_eq_bind, Option.bind_eq_some_iff] at ht
    obtain ⟨r, hr, ht⟩ := ht
    split at ht
    · cases ht
      unfold cancel
      split
      · exact ⟨h.congr (.inl rfl) (onLoop_modify (fun _ => rfl) h.calls), .inl ⟨rfl, rfl⟩⟩
      · exact ⟨h.congr (.inl rfl) (onLoop_modify (fun _ => rfl) h.calls), .inl ⟨rfl, rfl⟩⟩
      · exact ⟨h, .inl ⟨rfl, rfl⟩⟩
    · cases ht
      exact ⟨h, .inl ⟨rfl, rfl⟩⟩
    · cases ht
  | release id clock =>
    simp only [step, Option.bind_eq_bind, Option.bind_eq_some_iff] at ht
    obtain ⟨r, hr, ht⟩ := ht
    split at ht
    · rename_i hs
      cases ht
      refine endReleasing_pumps h (h.calls r (List.mem_of_getElem? hr)) rfl ?_
      simp only [pumpPoint, hr, Option.bind_eq_bind, Option.bind_some, if_pos hs]
    · cases ht
  | wake clock =>
    simp only [step] at ht
    split at ht
    · rename_i wakeAt hwake
      cases ht
      have hidle : OnLoop l {s with wakeHandle := none} := h.congr (.inl rfl) h.calls
      refine ⟨hidle.pumped clock, .inr ⟨clock, {s with wakeHandle := none}, ?_, rfl, rfl, rfl⟩⟩
      simp only [pumpPoint, hwake, Option.map_some]
    · cases ht

/-! ### The history of starts -/

/-- What the code's history of starts is of all starts so far. -/
structure Paced (L : Limits T) (last : Dict String T) (log : List (String × T)) (now : T) : Prop where
  past : ∀ e ∈ log, e.2 ≤ now
  ordered : log.Pairwise fun x y => x.2 ≤ y.2
  apart : log.Pairwise fun x y => x.1 = y.1 → x.2 + L.perHostMinInterval ≤ y.2
  /-- Only last starts whose interval has passed are missing, and they come first. -/
  forgotten : ∃ gone, Dict.latest log = gone ++ last.entries ∧ ∀ e ∈ gone, e.2 + L.perHostMinInterval ≤ now
  bounded : last.size ≤ L.hostHistoryLimit

theorem paced_initial (now : T) : Paced L ∅ [] now where
  past := fun e he => by cases he
  ordered := List.Pairwise.nil
  apart := List.Pairwise.nil
  forgotten := ⟨[], rfl, fun e he => by cases he⟩
  bounded := Nat.zero_le _

theorem Paced.later {last : Dict String T} {log : List (String × T)} {now then' : T} (h : Paced L last log now)
    (hle : now ≤ then') : Paced L last log then' where
  past := fun e he => (h.past e he).trans hle
  ordered := h.ordered
  apart := h.apart
  forgotten := by
    obtain ⟨gone, hsplit, hold⟩ := h.forgotten
    exact ⟨gone, hsplit, fun e he => (hold e he).trans hle⟩
  bounded := h.bounded

theorem Paced.pruned {s : State T} {log : List (String × T)} {now : T} (h : Paced L s.lastStartedAt log now)
    (hpos : 0 < L.perHostMinInterval) : Paced L (pruneHostHistory L now s).lastStartedAt log now := by
  obtain ⟨gone, hsplit, hold⟩ := h.forgotten
  unfold pruneHostHistory
  rw [if_neg hpos.ne']
  refine ⟨h.past, h.ordered, h.apart, ⟨gone ++ s.lastStartedAt.entries.takeWhile fun e =>
    !decide (now < e.2 + L.perHostMinInterval), ?_, ?_⟩, ?_⟩
  · rw [hsplit, List.append_assoc]
    exact congrArg _ (List.takeWhile_append_dropWhile).symm
  · intro e he
    obtain he | he := List.mem_append.mp he
    · exact hold e he
    · simpa using List.mem_takeWhile_imp he
  · exact (List.dropWhile_sublist _).length_le.trans h.bounded

/-- A waiter nothing paces starts a whole interval after the last start of its host,
whether the history still holds that start or not. -/
theorem Paced.ready {s : State T} {log : List (String × T)} {now : T} (h : Paced L s.lastStartedAt log now)
    {w : Waiter} (hw : pacedUntil L s now w = none) {t : T} (ht : (w.host, t) ∈ Dict.latest log) :
    t + L.perHostMinInterval ≤ now := by
  obtain ⟨gone, hsplit, hold⟩ := h.forgotten
  rw [hsplit] at ht
  obtain ht | ht := List.mem_append.mp ht
  · exact hold _ ht
  · have hget := (s.lastStartedAt.get?_eq_some_iff w.host t).mpr ht
    unfold pacedUntil at hw
    rw [hget] at hw
    by_contra hlt
    simp [not_le.mp hlt] at hw

/-- An admission keeps the history within its limit: the host has an entry already, or there
was room for one more. -/
theorem granted_size {s : State T} (hbounded : s.lastStartedAt.size ≤ L.hostHistoryLimit) {now : T} {index : Nat}
    {w : Waiter} (hw : pacedUntil L s now w = none) :
    (grant L now index w s).lastStartedAt.size ≤ L.hostHistoryLimit := by
  by_cases hpos : 0 < L.perHostMinInterval
  · have hlast : (grant L now index w s).lastStartedAt = (s.lastStartedAt.set w.host now).moveToEnd w.host :=
      if_pos hpos
    rw [hlast, Dict.size, Dict.entries_moveToEnd_set, List.length_append, List.length_singleton]
    unfold pacedUntil at hw
    cases hget : s.lastStartedAt.get? w.host with
    | some t =>
      have hmem := (s.lastStartedAt.get?_eq_some_iff w.host t).mp hget
      have hlt : (s.lastStartedAt.entries.filter fun e => e.1 ≠ w.host).length < s.lastStartedAt.entries.length :=
        List.length_filter_lt_length_iff_exists.mpr ⟨_, hmem, by simp⟩
      exact hlt.trans_le hbounded
    | none =>
      simp only [hget] at hw
      split at hw
      · rename_i hfull
        have hsize := L.history_pos.trans_le hfull.2
        cases hl : s.lastStartedAt.entries with
        | nil => simp [Dict.size, hl] at hsize
        | cons e rest => simp [Dict.values, hl] at hw
      · rename_i hfull
        have hle := List.length_filter_le (fun e => decide (e.1 ≠ w.host)) s.lastStartedAt.entries
        have hsize : s.lastStartedAt.entries.length < L.hostHistoryLimit :=
          not_le.mp fun hsize => hfull ⟨hpos, hsize⟩
        omega
  · have hlast : (grant L now index w s).lastStartedAt = s.lastStartedAt := if_neg hpos
    rw [hlast]
    exact hbounded

/-- **One admission keeps the pace.** The new start goes last, in the log and in the
history; no start of the same host is less than an interval old. -/
theorem Paced.admitted {s : State T} {log : List (String × T)} {now : T} (h : Paced L s.lastStartedAt log now)
    (hpos : 0 < L.perHostMinInterval) {index : Nat} {w : Waiter} (hw : pacedUntil L s now w = none) :
    Paced L (grant L now index w s).lastStartedAt (log ++ [(w.host, now)]) now := by
  have hlast : (grant L now index w s).lastStartedAt = (s.lastStartedAt.set w.host now).moveToEnd w.host :=
    if_pos hpos
  obtain ⟨gone, hsplit, hold⟩ := h.forgotten
  have hentries := s.lastStartedAt.entries_moveToEnd_set w.host now
  rw [hlast]
  refine ⟨?_, ?_, ?_, ⟨gone.filter fun e => e.1 ≠ w.host, ?_, ?_⟩, ?_⟩
  · intro e he
    obtain he | he := List.mem_append.mp he
    · exact h.past e he
    · rw [List.mem_singleton.mp he]
  · refine List.pairwise_append.mpr ⟨h.ordered, List.pairwise_singleton _ _, ?_⟩
    intro x hx y hy
    rw [List.mem_singleton.mp hy]
    exact h.past x hx
  · refine List.pairwise_append.mpr ⟨h.apart, List.pairwise_singleton _ _, ?_⟩
    intro x hx y hy
    rw [List.mem_singleton.mp hy]
    rintro (hhost : x.1 = w.host)
    -- The last start of the host is an interval old; an earlier one was so when that one began.
    obtain ⟨y, hy, hyx, hrel⟩ := Dict.exists_latest h.apart hx
    have hready := h.ready hw (t := y.2) (by rwa [← hhost, ← hyx])
    obtain rfl | hrel := hrel
    · exact hready
    · exact hrel.trans (h.past y ((Dict.latest_sublist log).subset hy))
  · rw [Dict.latest_concat, hsplit, hentries, List.filter_append, List.append_assoc]
  · exact fun e he => hold e (List.mem_of_mem_filter he)
  · rw [← hlast]
    exact granted_size h.bounded hw

/-- **A pump keeps the pace**, its readings being in order and none earlier than now. -/
theorem Paced.pumped {s : State T} {log : List (String × T)} {now later : T} (h : Paced L s.lastStartedAt log now)
    (hpos : 0 < L.perHostMinInterval) {clock : Nat → T} (hmono : Monotone clock) (hnow : now ≤ clock 0)
    (hlater : ∀ i, clock i ≤ later) :
    Paced L (pump L clock s).lastStartedAt (log ++ (pumpAdmissions L clock s).map start) later := by
  have hloop := pumpLoop_rule (L := L) (P := fun turn s t admitted => ∀ log now, now ≤ clock turn →
      Paced L s.lastStartedAt log now → Paced L t.lastStartedAt (log ++ admitted.map start) later) clock
    (fun turn s log now hnow h => by simpa using h.later (hnow.trans (hlater turn)))
    (fun turn s wakeAt log now hnow h => by
      simpa using ((h.later hnow).pruned hpos).later (hlater turn))
    (fun turn s index wakeAt w t admitted hnext hw ih log now hnow h => by
      obtain ⟨v, -, hv, -, hready⟩ := nextEligibleFrom_room _ _ _ _ _ hnext
      rw [Nat.sub_zero, hw] at hv
      cases hv
      have hgranted : Paced L (grant L (clock turn) index w (pruneHostHistory L (clock turn) s)).lastStartedAt
          (log ++ [(w.host, clock turn)]) (clock turn) := ((h.later hnow).pruned hpos).admitted hpos hready
      have hrest := ih _ _ (hmono turn.le_succ) hgranted
      rwa [List.append_assoc] at hrest)
  exact hloop _ 0 _ log now hnow h

/-! ### Runs -/

/-- The readings of a run, from some instant on, never go back: they are in order within
a step, and every later step reads no earlier instant than this one. -/
def Ticks : T → List (Action T) → Prop
  | _, [] => True
  | now, a :: rest =>
    match a.clock with
    | none => Ticks now rest
    | some clock => Monotone clock ∧ now ≤ clock 0 ∧ ∃ later, (∀ i, clock i ≤ later) ∧ Ticks later rest

/-- **One step keeps the pace.** -/
theorem step_paced {l : Nat} {s t : State T} {a : Action T} {rest : List (Action T)} {log : List (String × T)}
    {now : T} (hpos : 0 < L.perHostMinInterval) (hl : OnLoop l s) (ha : a.onLoop l)
    (hticks : Ticks now (a :: rest)) (h : Paced L s.lastStartedAt log now) (ht : step L s a = some t) :
    OnLoop l t ∧ ∃ later, Ticks later rest ∧
      Paced L t.lastStartedAt (log ++ (admissions L s a).map start) later := by
  obtain ⟨hon, hquiet | ⟨clock, u, hpumps⟩⟩ := step_pumps hl ha ht
  · obtain ⟨hpoint, hsame⟩ := hquiet
    have hnone : admissions L s a = [] := by simp only [admissions, hpoint]
    refine ⟨hon, ?_⟩
    rw [hnone, hsame, List.map_nil, List.append_nil]
    unfold Ticks at hticks
    split at hticks
    · exact ⟨now, hticks, h⟩
    · obtain ⟨_, hnow, later, hlater, hrest⟩ := hticks
      exact ⟨later, hrest, h.later (hnow.trans (hlater 0))⟩
  · have hsome : admissions L s a = pumpAdmissions L clock u := by simp only [admissions, hpumps.point]
    unfold Ticks at hticks
    rw [hpumps.reads] at hticks
    obtain ⟨hmono, hnow, later, hlater, hrest⟩ := hticks
    refine ⟨hon, later, hrest, ?_⟩
    rw [hsome, hpumps.after]
    exact (hpumps.before ▸ h : Paced L u.lastStartedAt log now).pumped hpos hmono hnow hlater

theorem run_paced {l : Nat} {s t : State T} {actions rest : List (Action T)} {log : List (String × T)} {now : T}
    (hpos : 0 < L.perHostMinInterval) (hl : OnLoop l s) (hactions : ∀ a ∈ actions, a.onLoop l)
    (hticks : Ticks now (actions ++ rest)) (h : Paced L s.lastStartedAt log now)
    (ht : (machine L).run s actions = some t) :
    ∃ later, Ticks later rest ∧ Paced L t.lastStartedAt (log ++ (history L s actions).map start) later := by
  induction actions generalizing s log now with
  | nil =>
    cases ht
    exact ⟨now, hticks, by simpa [history] using h⟩
  | cons a others ih =>
    obtain ⟨u, hu, hrest⟩ := Lib.Machine.run_cons ht
    obtain ⟨hon, later, hticks', hu'⟩ := step_paced hpos hl (hactions a (List.mem_cons_self ..)) hticks h hu
    obtain ⟨last, hlast, hend⟩ := ih hon (fun b hb => hactions b (List.mem_cons_of_mem a hb)) hticks' hu' hrest
    have hstep : step L s a = some u := hu
    refine ⟨last, hlast, ?_⟩
    simpa [history, hstep, List.append_assoc] using hend

/-- **Starts of one host are an interval apart, whatever the history forgets.** In every
run on one event loop whose clock never goes back, with a positive interval: two
admissions of a host are at least the interval apart; `_last_started_at` holds last starts
only, in their order, and at most `host_history_limit` of them; and a host it has dropped
or never taken in is one whose last start is an interval old at every reading to come. -/
theorem starts_paced (L : Limits T) (hpos : 0 < L.perHostMinInterval) (l : Nat) (now : T)
    (actions : List (Action T)) (hactions : ∀ a ∈ actions, a.onLoop l) (hticks : Ticks now actions) (s : State T)
    (hs : (machine L).run {} actions = some s) :
    ((history L {} actions).Pairwise fun x y => x.1.host = y.1.host → x.2 + L.perHostMinInterval ≤ y.2) ∧
      s.lastStartedAt.entries <:+ Dict.latest ((history L {} actions).map start) ∧
      (s.lastStartedAt.entries.Pairwise fun x y => x.2 ≤ y.2) ∧
      s.lastStartedAt.size ≤ L.hostHistoryLimit ∧
      (∀ host t, (host, t) ∈ Dict.latest ((history L {} actions).map start) → s.lastStartedAt.get? host = none →
        ∀ a rest clock, Ticks now (actions ++ a :: rest) → a.clock = some clock →
          ∀ i, t + L.perHostMinInterval ≤ clock i) := by
  have hempty : OnLoop l ({} : State T) := ⟨.inl rfl, fun r hr => by cases hr⟩
  have hfrom : ∀ rest, Ticks now (actions ++ rest) → ∃ later, Ticks later rest ∧
      Paced L s.lastStartedAt ((history L {} actions).map start) later := fun rest hrest =>
    run_paced hpos hempty hactions hrest (paced_initial now) hs
  obtain ⟨later, -, h⟩ := hfrom [] (by simpa using hticks)
  obtain ⟨gone, hsplit, -⟩ := h.forgotten
  have hsuffix : s.lastStartedAt.entries <:+ Dict.latest ((history L {} actions).map start) := ⟨gone, hsplit.symm⟩
  refine ⟨List.pairwise_map.mp h.apart, hsuffix, ?_, h.bounded, ?_⟩
  · exact h.ordered.sublist (hsuffix.sublist.trans (Dict.latest_sublist _))
  · intro host t ht habsent a rest clock hnext hclock i
    obtain ⟨now', hticks', h'⟩ := hfrom (a :: rest) hnext
    obtain ⟨gone', hsplit', hold⟩ := h'.forgotten
    rw [hsplit'] at ht
    unfold Ticks at hticks'
    rw [hclock] at hticks'
    obtain ⟨hmono, hnow, -⟩ := hticks'
    obtain ht | ht := List.mem_append.mp ht
    · exact ((hold _ ht).trans hnow).trans (hmono i.zero_le)
    · rw [(s.lastStartedAt.get?_eq_some_iff host t).mpr ht] at habsent
      cases habsent

/-- Two units, an interval of two and a history of one host. -/
def oneRemembered : Limits Nat := ⟨2, 2, 2, 1, Nat.two_pos, Nat.two_pos, Nat.zero_le 2, Nat.one_pos⟩

/-- The second host has to wait for the first one's interval, and the first host, whose
start the history has dropped by then, for nothing. -/
def takingTurns : List (Action Nat) :=
  [.request "a" 0 9 (fun _ => 0), .request "b" 0 9 (fun _ => 1), .wake (fun _ => 2), .release 0 (fun _ => 3),
    .request "a" 0 9 (fun _ => 3), .wake (fun _ => 4)]

theorem starts_paced_takingTurns : ∃ s, (machine oneRemembered).run {} takingTurns = some s ∧
    (history oneRemembered {} takingTurns).map start = [("a", 0), ("b", 2), ("a", 4)] ∧
    ((history oneRemembered {} takingTurns).Pairwise fun x y => x.1.host = y.1.host → x.2 + 2 ≤ y.2) ∧
    s.lastStartedAt.size ≤ 1 := by
  refine ⟨_, rfl, rfl, ?_⟩
  have hticks : Ticks 0 takingTurns := by
    simp only [takingTurns, Ticks, Action.clock]
    refine ⟨monotone_const, le_refl 0, 0, fun _ => le_refl 0, monotone_const, by decide, 1, fun _ => le_refl 1,
      monotone_const, by decide, 2, fun _ => le_refl 2, monotone_const, by decide, 3, fun _ => le_refl 3,
      monotone_const, by decide, 3, fun _ => le_refl 3, monotone_const, by decide, 4, fun _ => le_refl 4, trivial⟩
  have h := starts_paced oneRemembered (by decide) 0 0 takingTurns (by simp [takingTurns, Action.onLoop]) hticks _ rfl
  exact ⟨h.1, h.2.2.2.1⟩

end Fetech.Scheduling
