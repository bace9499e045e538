import Fetech.Lib.Runs
import Fetech.Security.Destinations

/-! Connections that go to validated addresses only (`fetech/transport.py`).

Several transports share a policy. A URL is evaluated, its host is pinned to the addresses that were
validated, and connections for the host are opened, by any number of tasks side by side; what the
resolver answers is new each time. `connections_vetted` says where connections go: to an address of a
list that the resolver gave for an evaluation that let a URL of the host through, all of them public,
and to one after the other of the list. -/
namespace Fetech.Transport
open Lib Lib.Url Lib.Except

/-- `PinnedNetworkBackend`, without what connects for it. -/
structure PinnedNetworkBackend where
  pins : Dict String (List String) := ∅
  cursor : Dict String Nat := ∅

inductive Failure where
  /-- The `ValueError` of `pin`. -/
  | value (message : String)
  /-- `httpcore.ConnectError` -/
  | connect (message : String)

/-- `host.lower().rstrip(".")` -/
def key (c : Codecs) (host : List Char) : String := String.ofList (rstrip '.' (c.lower host))

namespace PinnedNetworkBackend
variable (c : Codecs) (b : PinnedNetworkBackend)

def pin (host : List Char) (addresses : List String) : Except Failure PinnedNetworkBackend :=
  if addresses.isEmpty then .error (.value "at least one validated address is required")
  else .ok {b with pins := b.pins.set (key c host) addresses}

/-- `connect_tcp`: the address that is connected to. An empty list has nothing at any index. -/
def connectTcp (host : List Char) : Except Failure (String × PinnedNetworkBackend) :=
  let cursor := b.cursor.getD (key c host) 0
  match (b.pins.get? (key c host)).bind fun addresses => addresses[cursor % addresses.length]? with
  | none => .error (.connect ("destination " ++ String.ofList host ++ " has no validated DNS pin"))
  | some address => .ok (address, {b with cursor := b.cursor.set (key c host) (cursor + 1)})

end PinnedNetworkBackend

/-! ### Tasks side by side -/

structure World where
  validated : ValidatedAddresses := ∅
  backends : Nat → PinnedNetworkBackend := fun _ => {}

inductive Action where
  /-- `policy.evaluate`, with what the resolver answers meanwhile. -/
  | evaluate (target : String) (previousUrl : Option String) (resolver : String → Nat → List String)
  /-- `transport.pin(host, policy.validated_addresses(host))` -/
  | pin (transport : Nat) (host : List Char)
  | connect (transport : Nat) (host : List Char)

/-- What happened. -/
inductive Entry where
  /-- A URL was let through, with these answers of the resolver. -/
  | allowed (url : String) (resolver : String → Nat → List String)
  | connected (transport : Nat) (host : String) (address : String)

namespace World
variable (p : SafeUrlPolicy) (w : World)

def withBackend (transport : Nat) (b : PinnedNetworkBackend) : World :=
  {w with backends := Function.update w.backends transport b}

/-- What a task does; one that raises leaves the world as it is. -/
def step : Action → World × List Entry
  | .evaluate target previousUrl resolver =>
    match p.evaluate w.validated resolver target previousUrl with
    | .error _ => (w, [])
    | .ok (url, _, validated) => ({w with validated}, [.allowed url resolver])
  | .pin transport host =>
    match (w.backends transport).pin p.codecs host (w.validated.of p.codecs host) with
    | .error _ => (w, [])
    | .ok b => (w.withBackend transport b, [])
  | .connect transport host =>
    match (w.backends transport).connectTcp p.codecs host with
    | .error _ => (w, [])
    | .ok (address, b) => (w.withBackend transport b, [.connected transport (key p.codecs host) address])

@[simp] theorem withBackend_self (transport : Nat) (b : PinnedNetworkBackend) :
    (w.withBackend transport b).backends transport = b := Function.update_self ..

@[simp] theorem withBackend_of_ne {transport transport' : Nat} (h : transport' ≠ transport) (b : PinnedNetworkBackend) :
    (w.withBackend transport b).backends transport' = w.backends transport' := Function.update_of_ne h ..

end World

def machine (p : SafeUrlPolicy) : Machine World Action where
  step w a := some (w.step p a).1

/-- What happens in a run, in order. -/
def happened (p : SafeUrlPolicy) (actions : List Action) : List Entry :=
  (machine p).log (fun w a => (w.step p a).2) {} actions

/-! ### Where connections go -/

variable (p : SafeUrlPolicy)

/-- The addresses are those of a host of a URL that was let through. -/
def Vetted (log : List Entry) (host : String) (addresses : List String) : Prop :=
  ∃ url resolver parts port, .allowed url resolver ∈ log ∧ urlsplit p.codecs.toTables url.toList = some parts ∧
    host = p.hostOf parts ∧ host ∉ blockedHostnames ++ p.blockedThreatHostnames ∧ port ∈ p.allowedPorts ∧
    addresses = resolver host port ∧ ∀ address ∈ addresses, p.isPublicAddress address = true

/-- An entry is a connection of a transport for a host. -/
def Entry.isConnection (transport : Nat) (host : String) : Entry → Bool
  | .connected transport' host' _ => transport' == transport && host' == host
  | .allowed .. => false

/-- How many connections of a transport there were for a host. -/
def connections (log : List Entry) (transport : Nat) (host : String) : Nat := log.countP (Entry.isConnection transport host)

/-- Every connection of a log went to the address whose turn it was. -/
def InTurn (log : List Entry) : Prop :=
  ∀ before transport host address after, log = before ++ .connected transport host address :: after →
    ∃ addresses, Vetted p before host addresses ∧
      addresses[connections before transport host % addresses.length]? = some address

/-- What the policy and the transports remember is of what happened. -/
structure Sound (log : List Entry) (w : World) : Prop where
  validated : ∀ host addresses, w.validated.get? host = some addresses → Vetted p log host addresses
  pinned : ∀ transport host addresses, (w.backends transport).pins.get? host = some addresses → Vetted p log host addresses
  cursor : ∀ transport host, (w.backends transport).cursor.getD host 0 = connections log transport host
  inTurn : InTurn p log

section
variable {p} {log : List Entry} {w : World}

theorem Vetted.append {host : String} {addresses : List String} (h : Vetted p log host addresses) (more : List Entry) :
    Vetted p (log ++ more) host addresses := by
  obtain ⟨url, resolver, parts, port, hmem, hrest⟩ := h
  exact ⟨url, resolver, parts, port, List.mem_append_left _ hmem, hrest⟩

theorem InTurn.concat (h : InTurn p log) {entry : Entry}
    (hentry : ∀ transport host address, entry = .connected transport host address → ∃ addresses, Vetted p log host addresses ∧
      addresses[connections log transport host % addresses.length]? = some address) : InTurn p (log ++ [entry]) := by
  intro before transport host address after hsplit
  obtain rfl | ⟨after', last, rfl⟩ := List.eq_nil_or_concat after
  · obtain ⟨rfl, hlast⟩ := List.append_inj' hsplit rfl
    exact hentry transport host address (List.singleton_inj.mp hlast)
  · have hcut : log ++ [entry] = (before ++ .connected transport host address :: after') ++ [last] := by
      rw [hsplit, List.append_assoc, List.cons_append, List.concat_eq_append]
    exact h before transport host address after' (List.append_inj' hcut rfl).1

/-- The addresses of a host that was let through are vetted, and recorded for it. -/
theorem evaluate_vetted (log : List Entry) {target : String} {previousUrl : Option String} {resolver : String → Nat → List String}
    {url : String} {decisions : List PolicyDecision} {validated : ValidatedAddresses}
    (h : p.evaluate w.validated resolver target previousUrl = .ok (url, decisions, validated)) :
    ∃ host addresses, validated = w.validated.set host addresses ∧ Vetted p (log ++ [.allowed url resolver]) host addresses := by
  have hparts := h
  simp only [SafeUrlPolicy.evaluate, bind_eq_ok, require_eq_ok, ofOption_eq_ok, SafeUrlPolicy.resolve_eq_ok] at hparts
  obtain ⟨_, -, parts, hsplit, ⟨host, port⟩, hcheck, _, ⟨-, rfl⟩, -, -, -, hpublic, _, -, hreturn⟩ := hparts
  cases hreturn
  obtain ⟨-, hhost, hblocked, -, hport, -⟩ := SafeUrlPolicy.checkDestination_eq_ok hcheck
  exact ⟨host, resolver host port, rfl, url, resolver, parts, port, List.mem_append_right _ (List.mem_singleton_self _),
    hsplit, hhost, hblocked, hport, rfl, List.all_eq_true.mp hpublic⟩

theorem connections_concat_allowed {url : String} {resolver : String → Nat → List String} (transport : Nat) (host : String) :
    connections (log ++ [.allowed url resolver]) transport host = connections log transport host := by
  rw [connections, List.countP_append, connections]
  rfl

/-- A list of addresses that is validated for a host, and not empty, is recorded for it. -/
theorem get?_of_nonempty {host : List Char} (h : (w.validated.of p.codecs host).isEmpty = false) :
    w.validated.get? (key p.codecs host) = some (w.validated.of p.codecs host) := by
  rw [ValidatedAddresses.of, Dict.getD] at h ⊢
  show w.validated.get? (String.ofList (rstrip '.' (p.codecs.lower host))) = _
  cases hget : w.validated.get? (String.ofList (rstrip '.' (p.codecs.lower host))) with
  | none =>
    rw [hget] at h
    cases h
  | some addresses => rfl

theorem Sound.pin (h : Sound p log w) {transport : Nat} {host : List Char} {b : PinnedNetworkBackend}
    (hpin : (w.backends transport).pin p.codecs host (w.validated.of p.codecs host) = .ok b) :
    Sound p log (w.withBackend transport b) := by
  unfold PinnedNetworkBackend.pin at hpin
  split at hpin
  · cases hpin
  · rename_i hsome
    cases hpin
    refine ⟨h.validated, fun transport' host' addresses hget => ?_, fun transport' host' => ?_, h.inTurn⟩
    · by_cases htransport : transport' = transport
      · subst htransport
        rw [World.withBackend_self, Dict.get?_set] at hget
        split at hget
        · rename_i heq
          subst heq
          cases hget
          exact h.validated _ _ (get?_of_nonempty (Bool.eq_false_iff.mpr hsome))
        · exact h.pinned _ _ _ hget
      · rw [World.withBackend_of_ne _ htransport] at hget
        exact h.pinned _ _ _ hget
    · by_cases htransport : transport' = transport
      · subst htransport
        rw [World.withBackend_self]
        exact h.cursor _ _
      · rw [World.withBackend_of_ne _ htransport]
        exact h.cursor _ _

theorem connections_concat_connected (transport transport' : Nat) (host host' address : String) :
    connections (log ++ [.connected transport host address]) transport' host' =
      if transport' = transport ∧ host' = host then connections log transport host + 1
      else connections log transport' host' := by
  rw [connections, List.countP_append, List.countP_singleton, Entry.isConnection, ← connections]
  split
  · rename_i hsame
    rw [Bool.and_eq_true, beq_iff_eq, beq_iff_eq] at hsame
    rw [if_pos ⟨hsame.1.symm, hsame.2.symm⟩, hsame.1, hsame.2]
  · rename_i hother
    rw [Bool.and_eq_true, beq_iff_eq, beq_iff_eq] at hother
    rw [if_neg fun hsame => hother ⟨hsame.1.symm, hsame.2.symm⟩, Nat.add_zero]

theorem Sound.connect (h : Sound p log w) {transport : Nat} {host : List Char} {address : String}
    {b : PinnedNetworkBackend} (hconnect : (w.backends transport).connectTcp p.codecs host = .ok (address, b)) :
    Sound p (log ++ [.connected transport (key p.codecs host) address]) (w.withBackend transport b) := by
  unfold PinnedNetworkBackend.connectTcp at hconnect
  dsimp only at hconnect
  split at hconnect
  · cases hconnect
  · rename_i address' hturn
    cases hconnect
    obtain ⟨addresses, hget, hturn⟩ := Option.bind_eq_some_iff.mp hturn
    rw [h.cursor] at hturn
    refine ⟨fun host' addresses' hget' => (h.validated host' addresses' hget').append _,
      fun transport' host' addresses' hget' => ?_, fun transport' host' => ?_, h.inTurn.concat ?_⟩
    · by_cases htransport : transport' = transport
      · subst htransport
        rw [World.withBackend_self] at hget'
        exact (h.pinned _ _ _ hget').append _
      · rw [World.withBackend_of_ne _ htransport] at hget'
        exact (h.pinned _ _ _ hget').append _
    · rw [connections_concat_connected]
      by_cases htransport : transport' = transport
      · subst htransport
        rw [World.withBackend_self, Dict.getD_set]
        split
        · rename_i hhost
          rw [if_pos ⟨rfl, hhost⟩, h.cursor]
        · rename_i hhost
          rw [if_neg fun hsame => hhost hsame.2, h.cursor]
      · rw [World.withBackend_of_ne _ htransport, if_neg fun hsame => htransport hsame.1, h.cursor]
    · intro transport' host' address' heq
      cases heq
      exact ⟨addresses, h.pinned _ _ _ hget, hturn⟩

theorem Sound.step (h : Sound p log w) (a : Action) : Sound p (log ++ (w.step p a).2) (w.step p a).1 := by
  cases a with
  | evaluate target previousUrl resolver =>
    simp only [World.step]
    split
    · rwa [List.append_nil]
    · rename_i url _ validated heval
      obtain ⟨host, addresses, rfl, hvetted⟩ := evaluate_vetted log heval
      refine ⟨fun host' addresses' hget => ?_, fun transport host' addresses' hget => ?_, fun transport host' => ?_, ?_⟩
      · rw [Dict.get?_set] at hget
        split at hget
        · rename_i heq
          cases heq
          cases hget
          exact hvetted
        · exact (h.validated host' addresses' hget).append _
      · exact (h.pinned transport host' addresses' hget).append _
      · rw [connections_concat_allowed]
        exact h.cursor transport host'
      · apply h.inTurn.concat
        intro transport host address heq
        cases heq
  | pin transport host =>
    simp only [World.step]
    split
    · rwa [List.append_nil]
    · rename_i b hpin
      rw [List.append_nil]
      exact h.pin hpin
  | connect transport host =>
    simp only [World.step]
    split
    · rwa [List.append_nil]
    · rename_i address b hconnect
      exact h.connect hconnect

theorem sound_start : Sound p [] {} where
  validated _ _ hget := by cases hget
  pinned _ _ _ hget := by cases hget
  cursor _ _ := rfl
  inTurn before transport host address after hsplit := by cases before <;> cases hsplit

end

/-- **Connections go to validated addresses**, however evaluations, pins and connections of any number of
transports follow each other and whatever the resolver answers: each goes to a public address that the resolver
gave when a URL of the host was let through, the first connection of a transport for a host to the first of its
addresses, and the next ones to the others in turn. -/
theorem connections_vetted (p : SafeUrlPolicy) (actions : List Action) : InTurn p (happened p actions) := by
  obtain ⟨w, hw⟩ := Machine.exists_run (m := machine p) (fun w a => ⟨_, rfl⟩) {} actions
  have hsound : Sound p ([] ++ happened p actions) w := by
    apply Machine.run_log (R := fun _ _ => True) _ sound_start (Machine.obeys_trivial _ _) hw
    intro log w a w' h _ hstep
    cases hstep
    exact h.step a
  exact hsound.inTurn

end Fetech.Transport
