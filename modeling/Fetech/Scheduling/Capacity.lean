import Fetech.Lib.Lists
import Fetech.Scheduling

/-! Capacity is accounted for, whatever the order of steps.

`Sound` counts capacity by its owners: a call owns a unit from the moment its
future is set until it ends, resumed or not. Every operation of the scheduler keeps
that count, so no order of requests, admissions, cancellations, deadlines, releases
and wake-ups leaks a unit, hands one out twice or releases one that is not held. -/
namespace Fetech.Scheduling
open Lib (Dict)
open Lib.Lists

variable {T : Type} [LinearOrder T] [Zero T] {L : Limits T}

def Request.admittedTo (h : String) (r : Request) : Bool := r.admitted && r.host == h

/-- The waiter belongs to a call of that host which still awaits a future that is
not set, on the loop the scheduler is bound to. -/
def Queued (s : State T) (w : Waiter) : Prop :=
  ∃ r, s.requests[w.id]? = some r ∧ r.host = w.host ∧ r.stage = .waiting ∧ r.future ≠ .result ∧
    s.loop = some r.loop

structure Sound (L : Limits T) (s : State T) : Prop where
  global : s.activeGlobal = s.requests.countP Request.admitted
  host : ∀ h, s.activeByHost.getD h 0 = s.requests.countP (Request.admittedTo h)
  total : s.activeByHost.total = s.activeGlobal
  globalWithin : s.activeGlobal ≤ L.globalConcurrency
  hostWithin : ∀ h, s.activeByHost.getD h 0 ≤ L.perHostConcurrency
  queued : ∀ w ∈ s.waiters, Queued s w
  distinct : (s.waiters.map Waiter.id).Nodup
  holding : ∀ r ∈ s.requests, r.stage = .holding → r.future = .result
  bound : ∀ r ∈ s.requests, r.admitted = true → s.loop = some r.loop
  unfaulted : s.fault = none

theorem sound_initial : Sound L ({} : State T) where
  global := rfl
  host := fun _ => rfl
  total := rfl
  globalWithin := Nat.zero_le _
  hostWithin := fun _ => Nat.zero_le _
  queued := fun w hw => by cases hw
  distinct := List.nodup_nil
  holding := fun r hr => by cases hr
  bound := fun r hr => by cases hr
  unfaulted := rfl

/-! ### One request at a time -/

/-- A change of one request that keeps its host and whether it owns capacity keeps
every count. -/
theorem countP_modify_of_same {f : Request → Request} {l : List Request} {id : Nat} {r : Request}
    (h : l[id]? = some r) (p : Request → Bool) (hp : p (f r) = p r) :
    (l.modify id f).countP p = l.countP p := by
  have := countP_modify p f h
  rw [hp] at this
  omega

omit [LinearOrder T] [Zero T] in
theorem Queued.modify {s : State T} {w : Waiter} {id : Nat} (f : Request → Request)
    (h : Queued s w) (hid : w.id ≠ id) :
    Queued {s with requests := s.requests.modify id f} w := by
  obtain ⟨r, hr, hrest⟩ := h
  refine ⟨r, ?_, hrest⟩
  simp [Ne.symm hid, hr]

/-- The request a queued waiter belongs to. -/
theorem Sound.queued_at {s : State T} (h : Sound L s) {w : Waiter} (hw : w ∈ s.waiters) {r : Request}
    (hr : s.requests[w.id]? = some r) : r.stage = .waiting ∧ r.future ≠ .result := by
  obtain ⟨q, hq, _, hs, hf, _⟩ := h.queued w hw
  rw [hr] at hq
  cases hq
  exact ⟨hs, hf⟩

/-- Changes that move no capacity: the request keeps its host and its loop, stays in
a form its waiter may have, and owns what it owned. -/
theorem Sound.modify {s : State T} (h : Sound L s) {id : Nat} {r : Request} {f : Request → Request}
    (hr : s.requests[id]? = some r) (hhost : (f r).host = r.host) (hloop : (f r).loop = r.loop)
    (hadm : (f r).admitted = r.admitted) (hhold : (f r).stage = .holding → (f r).future = .result)
    (hwait : ∀ w ∈ s.waiters, w.id = id → (f r).stage = .waiting ∧ (f r).future ≠ .result) :
    Sound L {s with requests := s.requests.modify id f} where
  global := by
    rw [countP_modify_of_same hr _ hadm]
    exact h.global
  host := fun k => by
    rw [countP_modify_of_same hr _ (by simp only [Request.admittedTo, hadm, hhost])]
    exact h.host k
  total := h.total
  globalWithin := h.globalWithin
  hostWithin := h.hostWithin
  queued := fun w hw => by
    obtain ⟨q, hq, hqh, hqs, hqf, hql⟩ := h.queued w hw
    by_cases hid : w.id = id
    · subst hid
      obtain rfl : q = r := by
        rw [hr] at hq
        exact (Option.some.inj hq).symm
      obtain ⟨hs, hf⟩ := hwait w hw rfl
      refine ⟨f q, ?_, hhost.trans hqh, hs, hf, hloop ▸ hql⟩
      simp [hr]
    · exact Queued.modify f ⟨q, hq, hqh, hqs, hqf, hql⟩ hid
  distinct := h.distinct
  holding := fun x hx hs => by
    rcases mem_modify hr hx with hx | rfl
    · exact h.holding x hx hs
    · exact hhold hs
  bound := fun x hx hs => by
    rcases mem_modify hr hx with hx | rfl
    · exact h.bound x hx hs
    · rw [hloop]
      exact h.bound r (List.mem_of_getElem? hr) (hadm ▸ hs)
  unfaulted := h.unfaulted

/-- A call that ends at once, owning nothing. -/
theorem Sound.refuse {s : State T} (h : Sound L s) (host : String) (loop : Nat) :
    Sound L {s with requests := s.requests ++ [{host, loop, stage := .ended}]} where
  global := by simpa [Request.admitted] using h.global
  host := fun k => by simpa [Request.admitted, Request.admittedTo] using h.host k
  total := h.total
  globalWithin := h.globalWithin
  hostWithin := h.hostWithin
  queued := fun w hw => by
    obtain ⟨r, hr, hrest⟩ := h.queued w hw
    exact ⟨r, List.getElem?_append_left (List.getElem?_eq_some_iff.mp hr).1 ▸ hr, hrest⟩
  distinct := h.distinct
  holding := fun r hr hs => by
    rcases List.mem_append.mp hr with hr | hr
    · exact h.holding r hr hs
    · rw [List.mem_singleton.mp hr] at hs
      cases hs
  bound := fun r hr hs => by
    rcases List.mem_append.mp hr with hr | hr
    · exact h.bound r hr hs
    · rw [List.mem_singleton.mp hr] at hs
      simp [Request.admitted] at hs
  unfaulted := h.unfaulted

/-! ### The queue -/

theorem Sound.congr {s t : State T} (h : Sound L s) (hg : t.activeGlobal = s.activeGlobal)
    (hh : t.activeByHost = s.activeByHost) (hw : t.waiters.Sublist s.waiters)
    (hl : t.loop = s.loop) (hr : t.requests = s.requests) (hf : t.fault = s.fault) : Sound L t where
  global := by rw [hg, hr]; exact h.global
  host := fun k => by rw [hh, hr]; exact h.host k
  total := by rw [hh, hg]; exact h.total
  globalWithin := hg ▸ h.globalWithin
  hostWithin := hh ▸ h.hostWithin
  queued := fun w hwt => by
    obtain ⟨r, hrest⟩ := h.queued w (hw.subset hwt)
    exact ⟨r, by rw [hr, hl]; exact hrest⟩
  distinct := h.distinct.sublist (hw.map Waiter.id)
  holding := by rw [hr]; exact h.holding
  bound := by rw [hr, hl]; exact h.bound
  unfaulted := hf.trans h.unfaulted

/-- What the loop of the pump keeps: cancelled waiters are out of the queue. -/
structure Pumping (L : Limits T) (s : State T) : Prop extends Sound L s where
  pending : ∀ w ∈ s.waiters, futureOf s w = .pending

theorem Sound.discardCancelled {s : State T} (h : Sound L s) :
    Pumping L (discardCancelledWaiters s) where
  toSound := h.congr rfl rfl List.filter_sublist rfl rfl rfl
  pending := fun w hw => by
    obtain ⟨hw, hc⟩ := List.mem_filter.mp hw
    obtain ⟨r, hr, _, _, hf, _⟩ := h.queued w hw
    have hfuture : futureOf s w = r.future := by simp [futureOf, hr]
    show futureOf s w = .pending
    rw [hfuture] at hc ⊢
    revert hc hf
    cases r.future <;> simp

/-- Granting: one more unit, and its owner is the request whose future was set. -/
theorem Pumping.granted {s : State T} (h : Pumping L s) (now : T) {index : Nat} {w : Waiter}
    (hw : s.waiters[index]? = some w) (hglobal : s.activeGlobal < L.globalConcurrency)
    (hroom : s.activeByHost.getD w.host 0 < L.perHostConcurrency) :
    Pumping L (grant L now index w s) := by
  have hmem := List.mem_of_getElem? hw
  obtain ⟨r, hr, hhost, hstage, hfuture, hloop⟩ := h.queued w hmem
  have hnot : r.admitted = false := by
    cases hf : r.future <;> simp_all [Request.admitted]
  have hadm : ({r with future := .result} : Request).admitted = true := by
    simp [Request.admitted, hstage]
  have hne : ∀ v ∈ s.waiters.eraseIdx index, v.id ≠ w.id := fun v hv =>
    key_ne_of_mem_eraseIdx h.distinct hw hv
  have hqueued : ∀ v ∈ s.waiters.eraseIdx index, Queued (grant L now index w s) v := fun v hv =>
    Queued.modify (s := {s with
        waiters := s.waiters.eraseIdx index}) _ (h.queued v (List.mem_of_mem_eraseIdx hv)) (hne v hv)
  refine ⟨⟨?_, ?_, ?_, ?_, ?_, hqueued, ?_, ?_, ?_, h.unfaulted⟩, ?_⟩
  · have hc := countP_modify Request.admitted (fun r => {r with future := .result}) hr
    have hg := h.global
    simp only [hnot, hadm, if_true, Bool.false_eq_true, if_false] at hc
    show s.activeGlobal + 1 = (s.requests.modify w.id fun r => {r with future := .result}).countP
      Request.admitted
    omega
  · intro k
    have hc := countP_modify (Request.admittedTo k) (fun r => {r with future := .result}) hr
    have hh := h.host k
    have hbefore : r.admittedTo k = false := by simp [Request.admittedTo, hnot]
    have hafter : Request.admittedTo k {r with future := .result} = (w.host == k) := by
      rw [Request.admittedTo, hadm, Bool.true_and]
      simp [hhost]
    rw [hbefore, hafter] at hc
    show (s.activeByHost.set w.host (s.activeByHost.getD w.host 0 + 1)).getD k 0 =
      (s.requests.modify w.id fun r => {r with future := .result}).countP (Request.admittedTo k)
    rw [Dict.getD_set]
    by_cases hk : k = w.host
    · subst hk
      simp only [beq_self_eq_true, if_true, Bool.false_eq_true, if_false] at hc ⊢
      omega
    · simp only [beq_eq_false_iff_ne.mpr (Ne.symm hk), Bool.false_eq_true, if_false, hk] at hc ⊢
      omega
  · have ht := Dict.total_set s.activeByHost w.host (s.activeByHost.getD w.host 0 + 1)
    have := h.total
    show (s.activeByHost.set w.host (s.activeByHost.getD w.host 0 + 1)).total = s.activeGlobal + 1
    omega
  · exact hglobal
  · intro k
    show (s.activeByHost.set w.host (s.activeByHost.getD w.host 0 + 1)).getD k 0 ≤ _
    rw [Dict.getD_set]
    split
    · exact hroom
    · exact h.hostWithin k
  · exact h.distinct.sublist ((List.eraseIdx_sublist _ _).map _)
  · intro x hx hs
    rcases mem_modify hr hx with hx | rfl
    · exact h.holding x hx hs
    · rfl
  · intro x hx hs
    rcases mem_modify hr hx with hx | rfl
    · exact h.bound x hx hs
    · exact hloop
  · intro v hv
    have hp := h.pending v (List.mem_of_mem_eraseIdx hv)
    show ((((s.requests.modify w.id fun r => {r with future := .result})[v.id]?).map
      Request.future).getD .cancelled) = .pending
    rw [List.getElem?_modify]
    simpa [Ne.symm (hne v hv), futureOf] using hp

/-! ### Releasing -/

/-- Ending a call that owns capacity, and giving that capacity back, cancel out. -/
theorem Sound.vacated {s : State T} (h : Sound L s) {id : Nat} {r : Request}
    (hr : s.requests[id]? = some r) (hadm : r.admitted = true) :
    Sound L (vacate r.host (setStage id .ended s)) := by
  have hpos : 0 < s.requests.countP Request.admitted :=
    List.countP_pos_iff.mpr ⟨r, List.mem_of_getElem? hr, hadm⟩
  have hto : r.admittedTo r.host = true := by simp [Request.admittedTo, hadm]
  have hhostpos : 0 < s.activeByHost.getD r.host 0 := by
    rw [h.host]
    exact List.countP_pos_iff.mpr ⟨r, List.mem_of_getElem? hr, hto⟩
  have hended : ({r with stage := .ended} : Request).admitted = false := by simp [Request.admitted]
  have hget : ∀ k, (vacate r.host (setStage id .ended s)).activeByHost.getD k 0 =
      if k = r.host then s.activeByHost.getD r.host 0 - 1 else s.activeByHost.getD k 0 := by
    intro k
    show (if s.activeByHost.getD r.host 0 = 1 then s.activeByHost.erase r.host
      else s.activeByHost.set r.host (s.activeByHost.getD r.host 0 - 1)).getD k 0 = _
    split
    · rename_i hone
      rw [Dict.getD_erase, hone]
    · rw [Dict.getD_set]
  have hresult : r.future = .result := by
    simp only [Request.admitted, Bool.and_eq_true, beq_iff_eq] at hadm
    exact hadm.1
  refine ⟨?_, ?_, ?_, ?_, ?_, ?_, h.distinct, ?_, ?_, h.unfaulted⟩
  · have hc := countP_modify Request.admitted (fun r => {r with stage := .ended}) hr
    have hg := h.global
    rw [hadm, hended] at hc
    simp only [if_true, Bool.false_eq_true, if_false] at hc
    show s.activeGlobal - 1 = (s.requests.modify id fun r => {r with stage := .ended}).countP _
    omega
  · intro k
    have hc := countP_modify (Request.admittedTo k) (fun r => {r with stage := .ended}) hr
    have hh := h.host k
    have hafter : Request.admittedTo k {r with stage := .ended} = false := by
      rw [Request.admittedTo, hended, Bool.false_and]
    have hbefore : r.admittedTo k = (r.host == k) := by
      rw [Request.admittedTo, hadm, Bool.true_and]
    rw [hafter, hbefore] at hc
    rw [hget]
    show _ = (s.requests.modify id fun r => {r with stage := .ended}).countP _
    by_cases hk : k = r.host
    · subst hk
      simp only [beq_self_eq_true, if_true, Bool.false_eq_true, if_false] at hc ⊢
      omega
    · simp only [beq_eq_false_iff_ne.mpr (Ne.symm hk), Bool.false_eq_true, if_false, hk] at hc ⊢
      omega
  · have htotal := h.total
    have hglobal := h.global
    show (if s.activeByHost.getD r.host 0 = 1 then s.activeByHost.erase r.host
      else s.activeByHost.set r.host (s.activeByHost.getD r.host 0 - 1)).total = s.activeGlobal - 1
    split
    · have := Dict.total_erase s.activeByHost r.host
      omega
    · have := Dict.total_set s.activeByHost r.host (s.activeByHost.getD r.host 0 - 1)
      omega
  · have := h.globalWithin
    show s.activeGlobal - 1 ≤ _
    omega
  · intro k
    have := h.hostWithin k
    rw [hget]
    split
    · rename_i hk
      subst hk
      omega
    · exact this
  · intro w hw
    refine Queued.modify _ (h.queued w hw) ?_
    rintro rfl
    obtain ⟨q, hq, _, _, hf, _⟩ := h.queued w hw
    rw [hr] at hq
    cases hq
    exact hf hresult
  · intro x hx hs
    rcases mem_modify hr hx with hx | rfl
    · exact h.holding x hx hs
    · cases hs
  · intro x hx hs
    rcases mem_modify hr hx with hx | rfl
    · exact h.bound x hx hs
    · rw [hended] at hs
      cases hs

/-! ### Joining -/

/-- Binding to a loop: a change of loops finds nobody who owns capacity or waits. -/
theorem Sound.rebound {s t : State T} (h : Sound L s) {loop : Nat}
    (ht : eventLoop loop s = some t) :
    Sound L t ∧ t.loop = some loop := by
  unfold eventLoop at ht
  have unowned : s.loop = none ∨ s.activeGlobal = 0 → ∀ r ∈ s.requests, r.admitted = false := by
    intro hs r hr
    rcases hs with hs | hs
    · cases hadm : r.admitted
      · rfl
      · have := h.bound r hr hadm
        rw [hs] at this
        cases this
    · have hc := h.global
      rw [hs] at hc
      simpa using List.countP_eq_zero.mp hc.symm r hr
  split at ht
  · rename_i hnone
    cases ht
    refine ⟨{h with queued := ?_, bound := ?_}, rfl⟩
    · intro w hw
      obtain ⟨r, _, _, _, _, hl⟩ := h.queued w hw
      rw [hnone] at hl
      cases hl
    · intro r hr hadm
      rw [unowned (Or.inl hnone) r hr] at hadm
      cases hadm
  · rename_i l hl
    split at ht
    · rename_i hsame
      cases ht
      exact ⟨h, hsame ▸ hl⟩
    · split at ht
      · cases ht
      · rename_i hidle
        cases ht
        simp only [ne_eq, not_or, not_not] at hidle
        refine ⟨{h with queued := ?_, bound := ?_}, rfl⟩
        · intro w hw
          have hw' : w ∈ s.waiters := hw
          rw [hidle.2] at hw'
          cases hw'
        · intro r hr hadm
          rw [unowned (Or.inr hidle.1) r hr] at hadm
          cases hadm

theorem Sound.enqueue {s : State T} (h : Sound L s) (host : String) (loop : Nat)
    (hl : s.loop = some loop) :
    Sound L {s with
      requests := s.requests ++ [{host, loop}]
      waiters := s.waiters ++ [⟨s.requests.length, host⟩]} where
  global := by simpa [Request.admitted] using h.global
  host := fun k => by simpa [Request.admitted, Request.admittedTo] using h.host k
  total := h.total
  globalWithin := h.globalWithin
  hostWithin := h.hostWithin
  queued := fun w hw => by
    rcases List.mem_append.mp hw with hw | hw
    · obtain ⟨r, hr, hrest⟩ := h.queued w hw
      exact ⟨r, List.getElem?_append_left (List.getElem?_eq_some_iff.mp hr).1 ▸ hr, hrest⟩
    · rw [List.mem_singleton.mp hw]
      exact ⟨{host, loop}, by simp, rfl, rfl, Future.noConfusion, hl⟩
  distinct := by
    rw [List.map_append, List.nodup_append]
    refine ⟨h.distinct, List.nodup_singleton _, ?_⟩
    intro a ha b hb hab
    obtain ⟨w, hw, rfl⟩ := List.mem_map.mp ha
    obtain ⟨r, hr, _⟩ := h.queued w hw
    have hlt := (List.getElem?_eq_some_iff.mp hr).1
    simp only [List.map_cons, List.map_nil, List.mem_singleton] at hb
    omega
  holding := fun r hr hs => by
    rcases List.mem_append.mp hr with hr | hr
    · exact h.holding r hr hs
    · rw [List.mem_singleton.mp hr] at hs
      cases hs
  bound := fun r hr hs => by
    rcases List.mem_append.mp hr with hr | hr
    · exact h.bound r hr hs
    · rw [List.mem_singleton.mp hr] at hs
      simp [Request.admitted] at hs
  unfaulted := h.unfaulted

/-- An awaiting call whose future is set goes on into its body. -/
theorem Sound.enter {s : State T} (h : Sound L s) {id : Nat} {r : Request}
    (hr : s.requests[id]? = some r) (hf : r.future = .result) (hs : r.stage ≠ .ended) :
    Sound L (setStage id .holding s) := by
  have hadm : ({r with stage := .holding} : Request).admitted = r.admitted := by
    simp only [Request.admitted, bne_iff_ne.mpr hs]
    rfl
  refine h.modify hr rfl rfl hadm (fun _ => hf) ?_
  rintro w hw rfl
  exact absurd hf (h.queued_at hw hr).2

/-! ### Leaving -/

theorem Sound.cancelled {s : State T} (h : Sound L s) {id : Nat} {r : Request}
    (hr : s.requests[id]? = some r) (hs : r.stage = .waiting) : Sound L (cancel id r s) := by
  unfold cancel
  split
  · rename_i hf
    refine h.modify hr rfl rfl ?_ ?_ (fun _ _ _ => ⟨hs, Future.noConfusion⟩)
    · simp only [Request.admitted, hf]
      rfl
    · intro hhold
      rw [show r.stage = .holding from hhold] at hs
      cases hs
  · rename_i hf
    refine h.modify hr rfl rfl rfl (fun _ => hf) ?_
    rintro w hw rfl
    exact absurd hf (h.queued_at hw hr).2
  · exact h

/-- A call whose future was cancelled owns nothing when it ends. -/
theorem Sound.withdrawn {s : State T} (h : Sound L s) {id : Nat} {r : Request}
    (hr : s.requests[id]? = some r) (hf : r.future = .cancelled) :
    Sound L (discardWaiter id (setStage id .ended s)) := by
  have hout : Sound L (discardWaiter id s) := h.congr rfl rfl List.filter_sublist rfl rfl rfl
  refine hout.modify (f := fun r => {r with stage := .ended}) hr rfl rfl ?_ Stage.noConfusion ?_
  · simp only [Request.admitted, hf]
    rfl
  · intro w hw hid
    have := (List.mem_filter.mp hw).2
    simp [hid] at this

/-- Once every call has ended nobody owns capacity. -/
theorem Sound.drained {s : State T} (h : Sound L s) (hended : ∀ r ∈ s.requests, r.stage = .ended) :
    s.activeGlobal = 0 ∧ s.activeByHost.total = 0 ∧ ∀ k, s.activeByHost.getD k 0 = 0 := by
  have hnone : ∀ r ∈ s.requests, r.admitted = false := fun r hr => by
    simp [Request.admitted, hended r hr]
  have hglobal : s.activeGlobal = 0 := by
    rw [h.global, List.countP_eq_zero]
    exact fun r hr => by simp [hnone r hr]
  refine ⟨hglobal, h.total.trans hglobal, fun k => ?_⟩
  rw [h.host, List.countP_eq_zero]
  exact fun r hr => by simp [Request.admittedTo, hnone r hr]

/-! ### The pump -/

theorem grant_stages (now : T) (index : Nat) (w : Waiter) (s : State T) :
    (grant L now index w s).requests.map Request.stage = s.requests.map Request.stage :=
  map_modify_of_same (f := fun r => {r with future := .result}) (fun _ => rfl) s.requests w.id

variable [Add T]

theorem Pumping.prune {s : State T} (h : Pumping L s) (now : T) :
    Pumping L (pruneHostHistory L now s) := by
  unfold pruneHostHistory
  split
  · exact ⟨h.toSound.congr rfl rfl (List.Sublist.refl _) rfl rfl rfl, h.pending⟩
  · exact ⟨h.toSound.congr rfl rfl (List.Sublist.refl _) rfl rfl rfl, h.pending⟩

/-- The waiter the pump selects is in the queue, its host has room and is not paced. -/
theorem nextEligibleFrom_room (s : State T) (now : T) (ws : List Waiter) (start : Nat)
    (wakeAt : Option T) {index : Nat} {wake : Option T}
    (h : nextEligibleFrom L s now start wakeAt ws = (some index, wake)) :
    ∃ w, start ≤ index ∧ ws[index - start]? = some w ∧
      s.activeByHost.getD w.host 0 < L.perHostConcurrency ∧ pacedUntil L s now w = none := by
  induction ws generalizing start wakeAt with
  | nil => simp [nextEligibleFrom] at h
  | cons w rest ih =>
    have later : ∀ at', nextEligibleFrom L s now (start + 1) at' rest = (some index, wake) →
        ∃ w', start ≤ index ∧ (w :: rest)[index - start]? = some w' ∧
          s.activeByHost.getD w'.host 0 < L.perHostConcurrency ∧ pacedUntil L s now w' = none := by
      intro at' h
      obtain ⟨w', hle, hget, hroom⟩ := ih (start + 1) at' h
      refine ⟨w', by omega, ?_, hroom⟩
      rw [show index - start = (index - (start + 1)) + 1 by omega]
      exact hget
    simp only [nextEligibleFrom] at h
    split at h
    · exact later _ h
    · rename_i hroom
      split at h
      · exact later _ h
      · rename_i hready
        simp only [Prod.mk.injEq, Option.some.injEq] at h
        obtain ⟨rfl, _⟩ := h
        exact ⟨w, le_refl _, by simp, by omega, hready⟩

theorem Pumping.loop {s : State T} (h : Pumping L s) (clock : Nat → T) (fuel turn : Nat) :
    Sound L (pumpLoop L clock fuel turn s) := by
  induction fuel generalizing turn s with
  | zero => exact h.toSound
  | succ fuel ih =>
    simp only [pumpLoop]
    split
    · rename_i hglobal
      split
      · exact h.toSound
      · have hp := h.prune (clock turn)
        have hsame : (pruneHostHistory L (clock turn) s).activeGlobal = s.activeGlobal := by
          unfold pruneHostHistory
          split <;> rfl
        split
        · exact hp.toSound.congr rfl rfl (List.Sublist.refl _) rfl rfl rfl
        · rename_i hnext
          obtain ⟨w, _, hget, hroom, _⟩ := nextEligibleFrom_room _ _ _ _ _ hnext
          rw [Nat.sub_zero] at hget
          simp only [hget]
          exact ih (hp.granted (clock turn) hget (hsame ▸ hglobal) hroom) (turn + 1)
    · exact h.toSound

/-- **The pump keeps the accounts**, whoever runs it and whatever the clock reads. -/
theorem Sound.pumped {s : State T} (h : Sound L s) (clock : Nat → T) : Sound L (pump L clock s) := by
  have hidle : Sound L {s with wakeHandle := none} :=
    h.congr rfl rfl (List.Sublist.refl _) rfl rfl rfl
  exact hidle.discardCancelled.loop clock _ 0

/-- Whoever owns capacity can release it: the counts are positive and the scheduler
is bound to the owner's loop. -/
theorem Sound.released {s : State T} (h : Sound L s) (clock : Nat → T) {id : Nat} {r : Request}
    (hr : s.requests[id]? = some r) (hadm : r.admitted = true) :
    endReleasing L clock id r s = pump L clock (vacate r.host (setStage id .ended s)) := by
  have hmem := List.mem_of_getElem? hr
  have hglobal : s.activeGlobal ≠ 0 := by
    have := List.countP_pos_iff.mpr ⟨r, hmem, hadm⟩
    have := h.global
    omega
  have hhost : s.activeByHost.getD r.host 0 ≠ 0 := by
    have := List.countP_pos_iff.mpr ⟨r, hmem, show r.admittedTo r.host = true by
      simp [Request.admittedTo, hadm]⟩
    have := h.host r.host
    omega
  have hloop : eventLoop r.loop (vacate r.host (setStage id .ended s)) =
      some (vacate r.host (setStage id .ended s)) := by
    have hl : (vacate r.host (setStage id .ended s)).loop = some r.loop := h.bound r hmem hadm
    simp [eventLoop, hl]
  have hrelease : release L clock r.host r.loop (setStage id .ended s) =
      .ok (pump L clock (vacate r.host (setStage id .ended s))) := by
    unfold release
    rw [hloop]
    exact if_neg (not_or.mpr ⟨hglobal, hhost⟩)
  simp only [endReleasing, hrelease]

theorem Sound.endedReleasing {s : State T} (h : Sound L s) (clock : Nat → T) {id : Nat} {r : Request}
    (hr : s.requests[id]? = some r) (hadm : r.admitted = true) :
    Sound L (endReleasing L clock id r s) := by
  rw [h.released clock hr hadm]
  exact (h.vacated hr hadm).pumped clock

/-! ### Steps and runs -/

theorem pumpLoop_stages (clock : Nat → T) (fuel turn : Nat) (s : State T) :
    (pumpLoop L clock fuel turn s).requests.map Request.stage = s.requests.map Request.stage := by
  have hprune : ∀ now, (pruneHostHistory L now s).requests = s.requests := by
    intro now
    unfold pruneHostHistory
    split <;> rfl
  induction fuel generalizing turn s with
  | zero => rfl
  | succ fuel ih =>
    simp only [pumpLoop]
    split
    · split
      · rfl
      · split
        · exact congrArg _ (hprune _)
        · split
          · rename_i w _
            rw [ih _ _ (fun now => by unfold pruneHostHistory; split <;> rfl), grant_stages, hprune]
          · exact congrArg _ (hprune _)
    · rfl

/-- The pump sets futures; no call moves on inside it. -/
theorem pump_stages (clock : Nat → T) (s : State T) :
    (pump L clock s).requests.map Request.stage = s.requests.map Request.stage :=
  pumpLoop_stages clock _ 0 _

theorem Sound.joined {s : State T} (h : Sound L s) (clock : Nat → T) (host : String) (loop : Nat) :
    Sound L (join L clock host loop s) := by
  unfold join
  split
  · exact h.refuse host loop
  · rename_i t ht
    obtain ⟨hs, hl⟩ := h.rebound ht
    have hp := (hs.enqueue host loop hl).pumped clock
    have hstages := pump_stages (L := L) clock {t with
      requests := t.requests ++ [{host, loop}]
      waiters := t.waiters ++ [⟨t.requests.length, host⟩]}
    dsimp only
    generalize pump L clock _ = u at hp hstages ⊢
    split
    · rename_i hf
      cases hget : u.requests[t.requests.length]? with
      | none => simp [futureOf, hget] at hf
      | some r =>
        have hstage : r.stage = .waiting := by
          have := congrArg (·[t.requests.length]?) hstages
          simpa [hget] using this
        refine hp.enter hget (by simpa [futureOf, hget] using hf) ?_
        rw [hstage]
        exact Stage.noConfusion
    · exact hp

theorem Sound.resumed {s t : State T} (h : Sound L s) (clock : Nat → T) {id : Nat} {r : Request}
    (hr : s.requests[id]? = some r) (hs : r.stage = .waiting) (ht : resume L clock id r s = some t) :
    Sound L t := by
  unfold resume at ht
  split at ht
  · cases ht
  · rename_i hf
    split at ht
    · cases ht
      exact h.endedReleasing clock hr (by simp [Request.admitted, hf, hs])
    · cases ht
      exact h.enter hr hf (by rw [hs]; exact Stage.noConfusion)
  · rename_i hf
    cases ht
    exact (h.withdrawn hr hf).pumped clock

/-- **Every step keeps the accounts.** -/
theorem step_sound {s t : State T} {a : Action T} (h : Sound L s) (ht : step L s a = some t) :
    Sound L t := by
  cases a with
  | request host loop deadline clock =>
    simp only [step] at ht
    split at ht
    · cases ht
      exact h.refuse host loop
    · cases ht
      exact h.joined clock host loop
  | resume id clock =>
    simp only [step, Option.bind_eq_bind, Option.bind_eq_some_iff] at ht
    obtain ⟨r, hr, ht⟩ := ht
    split at ht
    · rename_i hs
      exact h.resumed clock hr hs ht
    · cases ht
  | cancel id =>
    simp only [step, Option.bind_eq_bind, Option.bind_eq_some_iff] at ht
    obtain ⟨r, hr, ht⟩ := ht
    split at ht
    · rename_i hs
      cases ht
      exact h.cancelled hr hs
    · cases ht
      exact h
    · cases ht
  | release id clock =>
    simp only [step, Option.bind_eq_bind, Option.bind_eq_some_iff] at ht
    obtain ⟨r, hr, ht⟩ := ht
    split at ht
    · rename_i hs
      cases ht
      have hf := h.holding r (List.mem_of_getElem? hr) hs
      exact h.endedReleasing clock hr (by simp [Request.admitted, hf, hs])
    · cases ht
  | wake clock =>
    simp only [step] at ht
    split at ht
    · cases ht
      have hidle : Sound L {s with wakeHandle := none} :=
        h.congr rfl rfl (List.Sublist.refl _) rfl rfl rfl
      exact hidle.pumped clock
    · cases ht

theorem run_sound {s t : State T} {actions : List (Action T)} (h : Sound L s)
    (ht : (machine L).run s actions = some t) : Sound L t :=
  Lib.Machine.run_invariant_of_step (I := Sound L) (fun _ _ _ hs hstep => step_sound hs hstep) h ht

/-- **No order of steps leaks, doubles or overdraws capacity.** After any run of the
scheduler the global count is the number of admitted calls not yet released and the
sum of the host counts, both limits hold, `_release` has not failed, and when every
call has ended all counts are zero. -/
theorem capacity_accounted (actions : List (Action T)) (s : State T)
    (hs : (machine L).run {} actions = some s) :
    s.activeGlobal = s.requests.countP Request.admitted ∧
      s.activeByHost.total = s.activeGlobal ∧
      s.activeGlobal ≤ L.globalConcurrency ∧
      (∀ host, s.activeByHost.getD host 0 = s.requests.countP (Request.admittedTo host)) ∧
      (∀ host, s.activeByHost.getD host 0 ≤ L.perHostConcurrency) ∧
      s.fault ≠ some .underflow ∧
      ((∀ r ∈ s.requests, r.stage = .ended) →
        s.activeGlobal = 0 ∧ s.activeByHost.total = 0 ∧ ∀ host, s.activeByHost.getD host 0 = 0) := by
  have h := run_sound sound_initial hs
  exact ⟨h.global, h.total, h.globalWithin, h.host, h.hostWithin, by simp [h.unfaulted], h.drained⟩

/-- One unit in all. -/
def oneSlot : Limits Nat := ⟨1, 1, 0, 1, by decide, by decide, by decide, by decide⟩

/-- The second call is admitted by the first one's release and cancelled before it
resumes; its handler finds the future set and releases. -/
def handover : List (Action Nat) :=
  [.request "a" 0 9 (fun _ => 0), .request "a" 0 9 (fun _ => 0), .release 0 (fun _ => 1), .cancel 1,
    .resume 1 (fun _ => 2)]

theorem capacity_accounted_handover : ∃ s, (machine oneSlot).run {} handover = some s ∧
    s.requests.map Request.stage = [.ended, .ended] ∧ s.fault ≠ some .underflow ∧ s.activeGlobal = 0 := by
  refine ⟨_, rfl, rfl, ?_⟩
  have h := capacity_accounted (L := oneSlot) handover _ rfl
  exact ⟨h.2.2.2.2.2.1, (h.2.2.2.2.2.2 (by decide)).1⟩

end Fetech.Scheduling
