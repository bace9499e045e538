import Fetech.Scheduling.Pacing

/-! No wake-up is lost.

A pump leaves a waiter in the queue for a reason that something will end: a release, which
pumps, or the time, for which a timer is armed. The reasons are in the state (`Blocked`), so
they still hold after steps that do not pump, and every step that changes them pumps. In the
queue waiters stand in the order of their calls, and a turn of the pump takes the first one
it can. -/
namespace Fetech.Scheduling
open Lib (Dict)

variable {T : Type} [LinearOrder T] [Add T] [Zero T] (L : Limits T)

/-! ### When a waiter can be admitted -/

/-- What a turn of the pump at this reading asks of a waiter. -/
structure Eligible (s : State T) (now : T) (w : Waiter) : Prop where
  global : s.activeGlobal < L.globalConcurrency
  host : s.activeByHost.getD w.host 0 < L.perHostConcurrency
  time : pacedUntil L (pruneHostHistory L now s) now w = none

/-- The instant from which the starts on record keep a waiter out no longer. -/
def readyAt (s : State T) (w : Waiter) : Option T :=
  if L.perHostMinInterval = 0 then none
  else
    match s.lastStartedAt.get? w.host with
    | some started => some (started + L.perHostMinInterval)
    | none =>
      if L.hostHistoryLimit ≤ s.lastStartedAt.size then
        s.lastStartedAt.values.head?.map (· + L.perHostMinInterval)
      else none

/-- Why a waiter is still in the queue. -/
inductive Blocked (s : State T) (w : Waiter) : Prop
  | full (h : L.globalConcurrency ≤ s.activeGlobal)
  | hostFull (h : L.perHostConcurrency ≤ s.activeByHost.getD w.host 0)
  | timed {ready wake : T} (hready : readyAt L s w = some ready) (hwake : s.wakeHandle = some wake) (hle : wake ≤ ready)

variable {L}

theorem pruned_sublist (now : T) (s : State T) :
    (pruneHostHistory L now s).lastStartedAt.entries.Sublist s.lastStartedAt.entries := by
  unfold pruneHostHistory
  split
  · exact List.nil_sublist _
  · exact List.dropWhile_sublist _

theorem pruned_size (now : T) (s : State T) : (pruneHostHistory L now s).lastStartedAt.size ≤ s.lastStartedAt.size :=
  (pruned_sublist now s).length_le

theorem mem_dropWhile {α : Type} {p : α → Bool} {l : List α} {x : α} (hx : x ∈ l) (hp : p x = false) :
    x ∈ l.dropWhile p := by
  induction l with
  | nil => cases hx
  | cons y l ih =>
    rw [List.dropWhile_cons]
    split
    · rename_i hy
      obtain rfl | hx := List.mem_cons.mp hx
      · rw [hp] at hy
        cases hy
      · exact ih hx
    · exact hx

/-- A history with room keeps no new host out. -/
theorem pacedUntil_of_room {s : State T} {now : T} {w : Waiter} (hroom : s.lastStartedAt.size < L.hostHistoryLimit)
    (habsent : s.lastStartedAt.get? w.host = none) : pacedUntil L s now w = none := by
  unfold pacedUntil
  rw [habsent]
  exact if_neg fun hfull => absurd hfull.2 (by omega)

/-- A start that keeps its host out is not forgotten. -/
theorem get?_pruned {s : State T} {now t : T} {host : String} (hzero : L.perHostMinInterval ≠ 0)
    (hget : s.lastStartedAt.get? host = some t) (hlt : now < t + L.perHostMinInterval) :
    (pruneHostHistory L now s).lastStartedAt.get? host = some t := by
  rw [pruneHostHistory, if_neg hzero]
  rw [Dict.get?_eq_some_iff] at hget ⊢
  exact mem_dropWhile hget (by simp [hlt])

theorem get?_of_pruned {s : State T} {now t : T} {host : String}
    (hget : (pruneHostHistory L now s).lastStartedAt.get? host = some t) : s.lastStartedAt.get? host = some t := by
  unfold pruneHostHistory at hget
  split at hget
  · cases hget
  · rw [Dict.get?_eq_some_iff] at hget ⊢
    exact (List.dropWhile_sublist _).subset hget

/-- **A waiter is ready from `readyAt` on**, and not before. -/
theorem pacedUntil_pruned {s : State T} (hbounded : s.lastStartedAt.size ≤ L.hostHistoryLimit) (now : T) (w : Waiter) :
    pacedUntil L (pruneHostHistory L now s) now w = none ↔ ∀ ready ∈ readyAt L s w, ready ≤ now := by
  unfold readyAt
  by_cases hzero : L.perHostMinInterval = 0
  · have hpruned : pruneHostHistory L now s = {s with lastStartedAt := ∅} := if_pos hzero
    rw [hpruned, if_pos hzero]
    simp [pacedUntil, hzero]
  · rw [if_neg hzero]
    cases hget : s.lastStartedAt.get? w.host with
    | some started =>
      simp only [Option.mem_def, Option.some.injEq, forall_eq']
      by_cases hlt : now < started + L.perHostMinInterval
      · rw [pacedUntil, get?_pruned hzero hget hlt]
        simp [hlt]
      · simp only [not_lt.mp hlt, iff_true]
        cases hkept : (pruneHostHistory L now s).lastStartedAt.get? w.host with
        | some t =>
          rw [get?_of_pruned hkept, Option.some.injEq] at hget
          subst hget
          rw [pacedUntil, hkept]
          exact if_neg hlt
        | none =>
          -- The start itself has been forgotten.
          refine pacedUntil_of_room (lt_of_lt_of_le (lt_of_le_of_ne (pruned_size now s) fun hsize => ?_) hbounded) hkept
          have hsame := (pruned_sublist now s).eq_of_length hsize
          rw [Dict.get?, hsame, ← Dict.get?, hget] at hkept
          cases hkept
    | none =>
      have habsent : (pruneHostHistory L now s).lastStartedAt.get? w.host = none := by
        cases hkept : (pruneHostHistory L now s).lastStartedAt.get? w.host with
        | none => rfl
        | some t =>
          rw [get?_of_pruned hkept] at hget
          cases hget
      dsimp only
      by_cases hfull : L.hostHistoryLimit ≤ s.lastStartedAt.size
      · rw [if_pos hfull]
        cases hentries : s.lastStartedAt.entries with
        | nil =>
          have hpos := L.history_pos
          rw [Dict.size, hentries, List.length_nil] at hfull
          omega
        | cons oldest rest =>
          have hhead : s.lastStartedAt.values.head? = some oldest.2 := by rw [Dict.values, hentries]; rfl
          rw [hhead]
          simp only [Option.map_some, Option.mem_def, Option.some.injEq, forall_eq']
          have hpruned : (pruneHostHistory L now s).lastStartedAt.entries =
              (oldest :: rest).dropWhile fun e => !decide (now < e.2 + L.perHostMinInterval) := by
            rw [pruneHostHistory, if_neg hzero, ← hentries]
            rfl
          by_cases hlt : now < oldest.2 + L.perHostMinInterval
          · have hsame : (pruneHostHistory L now s).lastStartedAt.entries = oldest :: rest := by
              rw [hpruned, List.dropWhile_cons]
              exact if_neg (by simp [hlt])
            have hpos : 0 < L.perHostMinInterval := lt_of_le_of_ne L.interval_nonneg (Ne.symm hzero)
            have hsize : L.hostHistoryLimit ≤ (pruneHostHistory L now s).lastStartedAt.size := by
              rwa [Dict.size, hsame, ← hentries]
            rw [pacedUntil, habsent]
            simp [hpos, hsize, Dict.values, hsame, hlt]
          · simp only [not_lt.mp hlt, iff_true]
            refine pacedUntil_of_room (lt_of_lt_of_le ?_ hbounded) habsent
            rw [Dict.size, Dict.size, hpruned, hentries, List.dropWhile_cons, if_pos (by simp [not_lt.mp hlt])]
            exact Nat.lt_succ_of_le (List.dropWhile_sublist _).length_le
      · rw [if_neg hfull]
        have hroom := lt_of_le_of_lt (pruned_size (L := L) now s) (not_le.mp hfull)
        simpa using pacedUntil_of_room hroom habsent

/-! ### What a turn finds -/

/-- With nobody to admit, the timer is due by the time any waiter with room at its host is. -/
theorem nextEligibleFrom_none {s : State T} {now : T} {ws : List Waiter} {start : Nat} {wakeAt wake : Option T}
    (h : nextEligibleFrom L s now start wakeAt ws = (none, wake)) :
    (∀ t ∈ wakeAt, ∃ u ∈ wake, u ≤ t) ∧ ∀ w ∈ ws, L.perHostConcurrency ≤ s.activeByHost.getD w.host 0 ∨
      ∃ t ∈ pacedUntil L s now w, ∃ u ∈ wake, u ≤ t := by
  induction ws generalizing start wakeAt with
  | nil =>
    cases h
    exact ⟨fun t ht => ⟨t, ht, le_refl t⟩, fun w hw => by cases hw⟩
  | cons w rest ih =>
    rw [nextEligibleFrom] at h
    split at h
    · rename_i hfull
      obtain ⟨hwake, hrest⟩ := ih h
      refine ⟨hwake, fun v hv => ?_⟩
      obtain rfl | hv := List.mem_cons.mp hv
      · exact .inl hfull
      · exact hrest v hv
    · split at h
      · rename_i t hpaced
        obtain ⟨hwake, hrest⟩ := ih h
        obtain ⟨u, hu, hle⟩ := hwake _ rfl
        have hearlier : earlier wakeAt t ≤ t ∧ ∀ v ∈ wakeAt, earlier wakeAt t ≤ v := by
          unfold earlier
          cases wakeAt with
          | none => exact ⟨le_refl t, fun v hv => by cases hv⟩
          | some v =>
            refine ⟨min_le_right v t, fun v' hv' => ?_⟩
            cases hv'
            exact min_le_left v t
        refine ⟨fun v hv => ⟨u, hu, hle.trans (hearlier.2 v hv)⟩, fun v hv => ?_⟩
        obtain rfl | hv := List.mem_cons.mp hv
        · exact .inr ⟨t, hpaced, u, hu, hle.trans hearlier.1⟩
        · exact hrest v hv
      · cases h

/-- The waiter that is selected is the first that can be. -/
theorem nextEligibleFrom_first {s : State T} {now : T} {ws : List Waiter} {start index : Nat} {wakeAt wake : Option T}
    (h : nextEligibleFrom L s now start wakeAt ws = (some index, wake)) :
    ∀ j < index - start, ∀ w ∈ ws[j]?, L.perHostConcurrency ≤ s.activeByHost.getD w.host 0 ∨
      pacedUntil L s now w ≠ none := by
  induction ws generalizing start wakeAt with
  | nil => cases h
  | cons w rest ih =>
    rw [nextEligibleFrom] at h
    intro j hj v hv
    split at h
    · rename_i hfull
      cases j with
      | zero =>
        cases hv
        exact .inl hfull
      | succ j => exact ih h j (by omega) v hv
    · split at h
      · rename_i t hpaced
        cases j with
        | zero =>
          cases hv
          exact .inr (by rw [hpaced]; exact Option.some_ne_none t)
        | succ j => exact ih h j (by omega) v hv
      · cases h
        omega

/-! ### What a pump leaves -/

/-- The queue is in the order of the calls. -/
structure InOrder (s : State T) : Prop where
  ordered : s.waiters.Pairwise fun w w' => w.id < w'.id
  known : ∀ w ∈ s.waiters, w.id < s.requests.length

omit [LinearOrder T] [Add T] [Zero T] in
theorem InOrder.sublist {s t : State T} (h : InOrder s) (hwaiters : t.waiters.Sublist s.waiters)
    (hrequests : t.requests.length = s.requests.length) : InOrder t where
  ordered := h.ordered.sublist hwaiters
  known := fun w hw => hrequests ▸ h.known w (hwaiters.subset hw)

theorem prune_eq (now : T) (s : State T) : (pruneHostHistory L now s).waiters = s.waiters ∧
    (pruneHostHistory L now s).activeGlobal = s.activeGlobal ∧
    (pruneHostHistory L now s).activeByHost = s.activeByHost := by
  obtain ⟨kept, hprune⟩ := pruneHostHistory_eq (L := L) now s
  rw [hprune]
  exact ⟨rfl, rfl, rfl⟩

/-- What keeps a waiter out now is what `readyAt` looks at. -/
theorem readyAt_of_paced {s : State T} {now t : T} {w : Waiter}
    (h : pacedUntil L (pruneHostHistory L now s) now w = some t) : readyAt L (pruneHostHistory L now s) w = some t := by
  have hzero : L.perHostMinInterval ≠ 0 := by
    intro hzero
    have hpruned : pruneHostHistory L now s = {s with lastStartedAt := ∅} := if_pos hzero
    rw [hpruned] at h
    simp [pacedUntil, hzero] at h
  rw [readyAt, if_neg hzero]
  rw [pacedUntil] at h
  cases hget : (pruneHostHistory L now s).lastStartedAt.get? w.host with
  | some started =>
    simp only [hget] at h ⊢
    by_cases hlt : now < started + L.perHostMinInterval
    · rwa [if_pos hlt] at h
    · rw [if_neg hlt] at h
      cases h
  | none =>
    simp only [hget] at h ⊢
    by_cases hfull : 0 < L.perHostMinInterval ∧ L.hostHistoryLimit ≤ (pruneHostHistory L now s).lastStartedAt.size
    · rw [if_pos hfull] at h
      rwa [if_pos hfull.2]
    · rw [if_neg hfull] at h
      cases h

/-- A pump takes waiters out of the queue and nothing else; the history stays within its limit. -/
theorem pump_keeps (clock : Nat → T) (s : State T) : (pump L clock s).waiters.Sublist s.waiters ∧
    (pump L clock s).requests.length = s.requests.length ∧
    (s.lastStartedAt.size ≤ L.hostHistoryLimit → (pump L clock s).lastStartedAt.size ≤ L.hostHistoryLimit) := by
  have hloop := pumpLoop_rule (L := L) (P := fun _ s t _ => t.waiters.Sublist s.waiters ∧
      t.requests.length = s.requests.length ∧
      (s.lastStartedAt.size ≤ L.hostHistoryLimit → t.lastStartedAt.size ≤ L.hostHistoryLimit)) clock
    (fun turn s => ⟨List.Sublist.refl _, rfl, id⟩)
    (fun turn s wakeAt => by
      obtain ⟨kept, hprune⟩ := pruneHostHistory_eq (L := L) (clock turn) s
      have hsize := pruned_size (L := L) (clock turn) s
      rw [hprune] at hsize ⊢
      exact ⟨List.Sublist.refl _, rfl, fun h => hsize.trans h⟩)
    (fun turn s index wakeAt w t log hnext hw ih => by
      obtain ⟨v, -, hv, -, hready⟩ := nextEligibleFrom_room _ _ _ _ _ hnext
      rw [Nat.sub_zero, hw] at hv
      cases hv
      obtain ⟨hwaiters, hrequests, hbounded⟩ := ih
      have hprune := prune_eq (L := L) (clock turn) s
      refine ⟨?_, ?_, fun h => hbounded (granted_size ((pruned_size _ _).trans h) hready)⟩
      · refine hwaiters.trans ?_
        show ((pruneHostHistory L (clock turn) s).waiters.eraseIdx index).Sublist s.waiters
        rw [hprune.1]
        exact List.eraseIdx_sublist ..
      · rw [hrequests]
        obtain ⟨kept, hkept⟩ := pruneHostHistory_eq (L := L) (clock turn) s
        rw [hkept]
        exact List.length_modify ..)
  obtain ⟨hwaiters, hrequests, hbounded⟩ := hloop _ 0 (discardCancelledWaiters {s with wakeHandle := none})
  exact ⟨hwaiters.trans List.filter_sublist, hrequests, hbounded⟩

/-- **Whoever a pump leaves in the queue is blocked.** -/
theorem pumpLoop_blocked (clock : Nat → T) (fuel turn : Nat) (s : State T) (hfuel : s.waiters.length ≤ fuel) :
    ∀ w ∈ (pumpLoop L clock fuel turn s).waiters, Blocked L (pumpLoop L clock fuel turn s) w := by
  induction fuel generalizing turn s with
  | zero =>
    rw [Nat.le_zero, List.length_eq_zero_iff] at hfuel
    intro w hw
    rw [pumpLoop, hfuel] at hw
    cases hw
  | succ fuel ih =>
    unfold pumpLoop
    by_cases hroom : s.activeGlobal < L.globalConcurrency
    · rw [if_pos hroom]
      cases hwaiters : s.waiters with
      | nil =>
        intro w hw
        rw [hwaiters] at hw
        cases hw
      | cons first others =>
        dsimp only
        cases hnext : nextEligibleWaiter L (pruneHostHistory L (clock turn) s) (clock turn) with
        | mk selected wakeAt =>
          cases selected with
          | none =>
            intro w hw
            obtain hfull | ⟨t, ht, u, hu, hle⟩ := (nextEligibleFrom_none hnext).2 w hw
            · exact .hostFull hfull
            · exact .timed (readyAt_of_paced ht) hu hle
          | some index =>
            obtain ⟨w, -, hw, -⟩ := nextEligibleFrom_room _ _ _ _ _ hnext
            rw [Nat.sub_zero] at hw
            dsimp only
            rw [hw]
            refine ih _ _ ?_
            have hlt : index < s.waiters.length := by
              rw [← (prune_eq (L := L) (clock turn) s).1]
              exact (List.getElem?_eq_some_iff.mp hw).1
            show ((pruneHostHistory L (clock turn) s).waiters.eraseIdx index).length ≤ fuel
            rw [(prune_eq (L := L) (clock turn) s).1, List.length_eraseIdx, if_pos hlt]
            omega
    · rw [if_neg hroom]
      exact fun w _ => .full (not_lt.mp hroom)

/-! ### Every step -/

/-- What holds between steps. -/
structure Watchful (L : Limits T) (s : State T) : Prop extends InOrder s where
  blocked : ∀ w ∈ s.waiters, Blocked L s w
  bounded : s.lastStartedAt.size ≤ L.hostHistoryLimit

theorem watchful_initial : Watchful L ({} : State T) where
  ordered := List.Pairwise.nil
  known := fun w hw => by cases hw
  blocked := fun w hw => by cases hw
  bounded := Nat.zero_le _

/-- A step that does not pump leaves every reason as it is. -/
theorem Watchful.congr {s t : State T} (h : Watchful L s) (hwaiters : t.waiters = s.waiters)
    (hrequests : s.requests.length ≤ t.requests.length) (hglobal : t.activeGlobal = s.activeGlobal)
    (hhost : t.activeByHost = s.activeByHost) (hlast : t.lastStartedAt = s.lastStartedAt)
    (hwake : t.wakeHandle = s.wakeHandle) : Watchful L t where
  ordered := hwaiters ▸ h.ordered
  known := fun w hw => (h.known w (hwaiters ▸ hw)).trans_le hrequests
  blocked := by
    intro w hw
    rw [hwaiters] at hw
    obtain hfull | hfull | ⟨hready, harmed, hle⟩ := h.blocked w hw
    · exact .full (hglobal ▸ hfull)
    · exact .hostFull (hhost ▸ hfull)
    · exact .timed (by rw [readyAt, hlast]; exact hready) (hwake ▸ harmed) hle
  bounded := hlast ▸ h.bounded

/-- A pump sees to every waiter, whatever it is run on. -/
theorem pumped_watchful {s : State T} (hordered : InOrder s) (hbounded : s.lastStartedAt.size ≤ L.hostHistoryLimit)
    (clock : Nat → T) : Watchful L (pump L clock s) := by
  obtain ⟨hwaiters, hrequests, hsize⟩ := pump_keeps (L := L) clock s
  exact {hordered.sublist hwaiters hrequests with
    blocked := pumpLoop_blocked clock _ 0 _ (Nat.le_refl _), bounded := hsize hbounded}

omit [LinearOrder T] [Add T] [Zero T] in
theorem eventLoop_keeps {loop : Nat} {s t : State T} (h : eventLoop loop s = some t) : t.waiters = s.waiters ∧
    t.requests = s.requests ∧ t.lastStartedAt.size ≤ s.lastStartedAt.size := by
  unfold eventLoop at h
  split at h
  · cases h
    exact ⟨rfl, rfl, le_refl _⟩
  · split at h
    · cases h
      exact ⟨rfl, rfl, le_refl _⟩
    · split at h
      · cases h
      · cases h
        exact ⟨rfl, rfl, Nat.zero_le _⟩

omit [LinearOrder T] [Add T] [Zero T] in
/-- A new call goes last. -/
theorem InOrder.enqueue {s u : State T} (h : InOrder s) (hwaiters : u.waiters = s.waiters)
    (hrequests : u.requests = s.requests) (host : String) (loop : Nat) : InOrder {u with
      requests := u.requests ++ [{host, loop}]
      waiters := u.waiters ++ [⟨u.requests.length, host⟩]} := by
  constructor
  · show (u.waiters ++ [(⟨u.requests.length, host⟩ : Waiter)]).Pairwise fun w w' => w.id < w'.id
    rw [List.pairwise_append, hwaiters]
    refine ⟨h.ordered, List.pairwise_singleton _ _, fun w hw w' hw' => ?_⟩
    rw [List.mem_singleton.mp hw', hrequests]
    exact h.known w hw
  · intro w hw
    show w.id < (u.requests ++ [({host, loop} : Request)]).length
    rw [List.length_append, List.length_singleton]
    obtain hw | hw := List.mem_append.mp hw
    · have hknown := h.known w (hwaiters ▸ hw)
      rw [hrequests]
      omega
    · rw [List.mem_singleton.mp hw]
      exact Nat.lt_succ_self _

theorem Watchful.endedReleasing {s : State T} (h : Watchful L s) (clock : Nat → T) (id : Nat) (r : Request) :
    Watchful L (endReleasing L clock id r s) := by
  have hended : Watchful L (setStage id .ended s) := h.congr rfl (List.length_modify ..).ge rfl rfl rfl rfl
  unfold endReleasing release
  split
  · rename_i t hreleased
    split at hreleased
    · cases hreleased
    · split at hreleased
      · cases hreleased
      · rename_i u hloop
        cases hreleased
        obtain ⟨hwaiters, hrequests, hsize⟩ := eventLoop_keeps hloop
        exact pumped_watchful (hended.toInOrder.sublist (by rw [hwaiters]; exact List.Sublist.refl _) (by rw [hrequests]; rfl))
          (hsize.trans hended.bounded) clock
  · exact hended.congr rfl (le_refl _) rfl rfl rfl rfl

theorem Watchful.joined {s : State T} (h : Watchful L s) (clock : Nat → T) (host : String) (loop : Nat) :
    Watchful L (join L clock host loop s) := by
  unfold join
  cases hloop : eventLoop loop s with
  | none =>
    refine h.congr rfl ?_ rfl rfl rfl rfl
    show s.requests.length ≤ (s.requests ++ [_]).length
    rw [List.length_append]
    omega
  | some u =>
    obtain ⟨hwaiters, hrequests, hsize⟩ := eventLoop_keeps hloop
    have hqueued := h.toInOrder.enqueue hwaiters hrequests host loop
    have hpumped := pumped_watchful hqueued (hsize.trans h.bounded) clock
    simp only []
    split
    · exact hpumped.congr rfl (List.length_modify ..).ge rfl rfl rfl rfl
    · exact hpumped

theorem Watchful.resumed {s t : State T} (h : Watchful L s) (clock : Nat → T) {id : Nat} {r : Request}
    (ht : resume L clock id r s = some t) : Watchful L t := by
  unfold resume at ht
  split at ht
  · cases ht
  · split at ht
    · cases ht
      exact h.endedReleasing clock id r
    · cases ht
      exact h.congr rfl (List.length_modify ..).ge rfl rfl rfl rfl
  · cases ht
    have hended : InOrder (setStage id .ended s) :=
      h.toInOrder.sublist (List.Sublist.refl _) (List.length_modify ..)
    have hdiscarded : InOrder (discardWaiter id (setStage id .ended s)) := hended.sublist List.filter_sublist rfl
    exact pumped_watchful hdiscarded h.bounded clock

theorem step_watchful {s t : State T} {a : Action T} (h : Watchful L s) (ht : step L s a = some t) : Watchful L t := by
  cases a with
  | request host loop deadline clock =>
    simp only [step] at ht
    split at ht
    · cases ht
      refine h.congr rfl ?_ rfl rfl rfl rfl
      show s.requests.length ≤ (s.requests ++ [_]).length
      rw [List.length_append]
      omega
    · cases ht
      exact h.joined clock host loop
  | resume id clock =>
    simp only [step, Option.bind_eq_bind, Option.bind_eq_some_iff] at ht
    obtain ⟨r, -, ht⟩ := ht
    split at ht
    · exact h.resumed clock ht
    · cases ht
  | cancel id =>
    simp only [step, Option.bind_eq_bind, Option.bind_eq_some_iff] at ht
    obtain ⟨r, -, ht⟩ := ht
    split at ht
    · cases ht
      unfold cancel
      split
      · exact h.congr rfl (List.length_modify ..).ge rfl rfl rfl rfl
      · exact h.congr rfl (List.length_modify ..).ge rfl rfl rfl rfl
      · exact h
    · cases ht
      exact h
    · cases ht
  | release id clock =>
    simp only [step, Option.bind_eq_bind, Option.bind_eq_some_iff] at ht
    obtain ⟨r, -, ht⟩ := ht
    split at ht
    · cases ht
      exact h.endedReleasing clock id r
    · cases ht
  | wake clock =>
    simp only [step] at ht
    split at ht
    · cases ht
      exact pumped_watchful ⟨h.ordered, h.known⟩ h.bounded clock
    · cases ht

/-! ### Turns -/

/-- One turn of a pump that admits somebody: what it finds, its reading and whom it takes. -/
structure Turn (T : Type) where
  state : State T
  now : T
  waiter : Waiter

variable (L) in
/-- The turns of one `_pump`, as `loopAdmissions` with what each turn finds. -/
def loopTurns (clock : Nat → T) : Nat → Nat → State T → List (Turn T)
  | 0, _, _ => []
  | fuel + 1, turn, s =>
    if s.activeGlobal < L.globalConcurrency then
      match s.waiters with
      | [] => []
      | _ :: _ =>
        let pruned := pruneHostHistory L (clock turn) s
        match nextEligibleWaiter L pruned (clock turn) with
        | (none, _) => []
        | (some index, _) =>
          match pruned.waiters[index]? with
          | some w => ⟨s, clock turn, w⟩ :: loopTurns clock fuel (turn + 1) (grant L (clock turn) index w pruned)
          | none => []
    else []

variable (L) in
def pumpTurns (clock : Nat → T) (s : State T) : List (Turn T) :=
  let s := discardCancelledWaiters {s with wakeHandle := none}
  loopTurns L clock s.waiters.length 0 s

variable (L) in
/-- The turns of a step that admit somebody. -/
def turns (s : State T) (a : Action T) : List (Turn T) :=
  match pumpPoint s a with
  | some (clock, u) => pumpTurns L clock u
  | none => []

/-- Who is taken was in the queue and could be; who had called before could not. -/
structure Turn.Fair (L : Limits T) (turn : Turn T) : Prop where
  queued : turn.waiter ∈ turn.state.waiters
  eligible : Eligible L turn.state turn.now turn.waiter
  first : ∀ w ∈ turn.state.waiters, w.id < turn.waiter.id → ¬ Eligible L turn.state turn.now w

theorem loopTurns_admissions (clock : Nat → T) (fuel turn : Nat) (s : State T) :
    (loopTurns L clock fuel turn s).map (fun t => (t.waiter, t.now)) = loopAdmissions L clock fuel turn s := by
  induction fuel generalizing turn s with
  | zero => rfl
  | succ fuel ih =>
    unfold loopTurns loopAdmissions
    by_cases hroom : s.activeGlobal < L.globalConcurrency
    · rw [if_pos hroom, if_pos hroom]
      cases s.waiters with
      | nil => rfl
      | cons first others =>
        dsimp only
        cases nextEligibleWaiter L (pruneHostHistory L (clock turn) s) (clock turn) with
        | mk selected wakeAt =>
          cases selected with
          | none => rfl
          | some index =>
            dsimp only
            cases (pruneHostHistory L (clock turn) s).waiters[index]? with
            | none => rfl
            | some w =>
              dsimp only
              rw [List.map_cons, ih]
    · rw [if_neg hroom, if_neg hroom]
      rfl

/-- **Every turn is fair.** -/
theorem loopTurns_fair (clock : Nat → T) (fuel turn : Nat) {s : State T} (h : InOrder s) :
    ∀ t ∈ loopTurns L clock fuel turn s, t.Fair L := by
  induction fuel generalizing turn s with
  | zero =>
    intro t ht
    cases ht
  | succ fuel ih =>
    intro t ht
    unfold loopTurns at ht
    split at ht
    · rename_i hroom
      split at ht
      · cases ht
      · simp only [] at ht
        split at ht
        · cases ht
        · rename_i index wakeAt hnext
          split at ht
          · rename_i w hw
            obtain ⟨hwaiters, hglobal, hhost⟩ := prune_eq (L := L) (clock turn) s
            obtain ⟨v, hle, hv, hfree, hready⟩ := nextEligibleFrom_room _ _ _ _ _ hnext
            rw [Nat.sub_zero, hw] at hv
            cases hv
            have hfirst := nextEligibleFrom_first hnext
            rw [hwaiters] at hw hfirst
            obtain rfl | ht := List.mem_cons.mp ht
            · refine ⟨List.mem_of_getElem? hw, ⟨hroom, hhost ▸ hfree, hready⟩, fun w' hw' hlt heligible => ?_⟩
              obtain ⟨j, hj⟩ := List.mem_iff_getElem?.mp hw'
              have hbefore : j < index := by
                -- The queue is in order, so an older waiter stands before.
                by_contra hge
                obtain rfl | hafter := Nat.eq_or_lt_of_le (not_lt.mp hge)
                · rw [hw] at hj
                  cases hj
                  exact lt_irrefl _ hlt
                · obtain ⟨hi, hwi⟩ := List.getElem?_eq_some_iff.mp hw
                  obtain ⟨hj, hwj⟩ := List.getElem?_eq_some_iff.mp hj
                  have hordered := List.pairwise_iff_getElem.mp h.ordered index j hi hj hafter
                  rw [hwi, hwj] at hordered
                  exact lt_asymm hlt hordered
              obtain hfull | hpaced := hfirst j (by omega) w' hj
              · rw [hhost] at hfull
                exact absurd heligible.host (not_lt.mpr hfull)
              · exact hpaced heligible.time
            · refine ih (turn + 1) (h.sublist ?_ ?_) t ht
              · show ((pruneHostHistory L (clock turn) s).waiters.eraseIdx index).Sublist s.waiters
                rw [hwaiters]
                exact List.eraseIdx_sublist ..
              · obtain ⟨kept, hkept⟩ := pruneHostHistory_eq (L := L) (clock turn) s
                rw [hkept]
                exact List.length_modify ..
          · cases ht
    · cases ht

omit [LinearOrder T] [Add T] [Zero T] in
theorem releasePoint_inOrder {s u : State T} (h : InOrder s) {host : String} {loop : Nat}
    (hu : releasePoint host loop s = some u) : InOrder u := by
  unfold releasePoint at hu
  split at hu
  · cases hu
  · obtain ⟨hwaiters, hrequests, -⟩ := eventLoop_keeps hu
    exact h.sublist (by rw [hwaiters]; exact List.Sublist.refl _) (by rw [hrequests]; rfl)

omit [Add T] in
/-- Wherever a step pumps, the queue is in order. -/
theorem pumpPoint_inOrder {s u : State T} {a : Action T} {clock : Nat → T} (h : InOrder s)
    (hu : pumpPoint s a = some (clock, u)) : InOrder u := by
  have hended : ∀ id, InOrder (setStage id .ended s) := fun id =>
    h.sublist (List.Sublist.refl _) (List.length_modify ..)
  cases a with
  | request host loop deadline reads =>
    simp only [pumpPoint] at hu
    split at hu
    · cases hu
    · obtain ⟨v, hv, heq⟩ := Option.map_eq_some_iff.mp hu
      obtain ⟨hwaiters, hrequests, -⟩ := eventLoop_keeps hv
      cases heq
      exact h.enqueue hwaiters hrequests host loop
  | resume id reads =>
    simp only [pumpPoint, Option.bind_eq_bind, Option.bind_eq_some_iff] at hu
    obtain ⟨r, -, hu⟩ := hu
    split at hu
    · split at hu
      · cases hu
      · split at hu
        · obtain ⟨v, hv, heq⟩ := Option.map_eq_some_iff.mp hu
          cases heq
          exact releasePoint_inOrder (hended id) hv
        · cases hu
      · cases hu
        exact (hended id).sublist List.filter_sublist rfl
    · cases hu
  | cancel id => cases hu
  | release id reads =>
    simp only [pumpPoint, Option.bind_eq_bind, Option.bind_eq_some_iff] at hu
    obtain ⟨r, -, hu⟩ := hu
    split at hu
    · obtain ⟨v, hv, heq⟩ := Option.map_eq_some_iff.mp hu
      cases heq
      exact releasePoint_inOrder (hended id) hv
    · cases hu
  | wake reads =>
    obtain ⟨v, -, heq⟩ := Option.map_eq_some_iff.mp hu
    cases heq
    exact ⟨h.ordered, h.known⟩

/-! ### Runs -/

/-- No wake-up is lost in this state, and none will be by the next step. -/
structure Attentive (L : Limits T) (s : State T) : Prop where
  /-- Whoever waits with room everywhere waits for the time, and a timer will see to it. -/
  armed : ∀ w ∈ s.waiters, s.activeGlobal < L.globalConcurrency →
    s.activeByHost.getD w.host 0 < L.perHostConcurrency →
    ∃ ready ∈ readyAt L s w, ∃ wake ∈ s.wakeHandle, wake ≤ ready
  /-- That time is the one from which a turn of the pump would take the waiter. -/
  ready : ∀ w now, Eligible L s now w ↔ s.activeGlobal < L.globalConcurrency ∧
    s.activeByHost.getD w.host 0 < L.perHostConcurrency ∧ ∀ ready ∈ readyAt L s w, ready ≤ now
  fair : ∀ a, ∀ turn ∈ turns L s a, turn.Fair L
  complete : ∀ a, (turns L s a).map (fun turn => (turn.waiter, turn.now)) = admissions L s a
  /-- No release has failed, so every release has pumped. -/
  unfaulted : s.fault = none

theorem Watchful.attentive {s : State T} (h : Watchful L s) (hsound : s.fault = none) : Attentive L s where
  armed := by
    intro w hw hglobal hhost
    obtain hfull | hfull | ⟨hready, hwake, hle⟩ := h.blocked w hw
    · exact absurd hglobal (not_lt.mpr hfull)
    · exact absurd hhost (not_lt.mpr hfull)
    · exact ⟨_, hready, _, hwake, hle⟩
  ready := by
    intro w now
    rw [← pacedUntil_pruned h.bounded now w]
    exact ⟨fun h => ⟨h.global, h.host, h.time⟩, fun ⟨hglobal, hhost, htime⟩ => ⟨hglobal, hhost, htime⟩⟩
  fair := by
    intro a turn hturn
    unfold turns at hturn
    split at hturn
    · rename_i clock u hpoint
      have hordered : InOrder (discardCancelledWaiters {u with wakeHandle := none}) :=
        (pumpPoint_inOrder h.toInOrder hpoint).sublist List.filter_sublist rfl
      exact loopTurns_fair clock _ 0 hordered turn hturn
    · cases hturn
  complete := by
    intro a
    unfold turns admissions
    cases pumpPoint s a with
    | none => rfl
    | some point => exact loopTurns_admissions ..
  unfaulted := hsound

theorem run_watchful {s t : State T} {actions : List (Action T)} (h : Watchful L s)
    (ht : (machine L).run s actions = some t) : Watchful L t :=
  (machine L).run_invariant_of_step (fun _ _ _ hu hv => step_watchful hu hv) h ht

/-- **No wake-up is lost.** After every run, whoever is still queued while its host and the
whole have room is kept out by its host's last start or by a full history, for a time the
armed timer does not outlast; and whatever step comes next, each of its admissions takes a
waiter with no eligible one before it in the queue. -/
theorem wakeups_kept (L : Limits T) (actions : List (Action T)) (s : State T)
    (hs : (machine L).run {} actions = some s) : Attentive L s :=
  (run_watchful watchful_initial hs).attentive (run_sound sound_initial hs).unfaulted

/-- Two hosts share a history of one: the second waits for the timer of the first. -/
def kept : List (Action Nat) := [.request "a" 0 9 (fun _ => 0), .request "b" 0 9 (fun _ => 1)]

theorem wakeups_kept_sharedHistory : ∃ s, (machine oneRemembered).run {} kept = some s ∧
    s.waiters = [⟨1, "b"⟩] ∧ s.activeGlobal = 1 ∧ s.wakeHandle = some 2 ∧
    (∃ ready ∈ readyAt oneRemembered s ⟨1, "b"⟩, ∃ wake ∈ s.wakeHandle, wake ≤ ready) ∧
    ∀ turn ∈ turns oneRemembered s (.wake fun _ => 2), turn.Fair oneRemembered := by
  refine ⟨_, rfl, rfl, rfl, rfl, ?_⟩
  have h := wakeups_kept oneRemembered kept _ rfl
  exact ⟨h.armed ⟨1, "b"⟩ (by decide) (by decide) (by decide), h.fair _⟩

end Fetech.Scheduling
