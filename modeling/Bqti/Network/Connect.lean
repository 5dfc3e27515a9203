import Bqti.Network.Registered

/-!
# Calls of connect

A call of `connect` looks for a connection and for a dial in progress under both read locks, looks
for a dial again under the write lock, then dials without a lock and at last takes the address out
of the set of dials. A call that finds a dial in progress returns at once, whatever becomes of that
dial.

Beside each call stands whether a connection to its peer was in the map at some moment of it.
-/

namespace Bqti.Dht

/-- The addresses of this host. -/
def IpAddr.isLoopback : IpAddr → Bool
  | .v4 octets => octets[0]? == some 127
  | .v6 octets => octets.toList == List.replicate 15 0 ++ [1]

/-- The address that names no host. -/
def IpAddr.isUnspecified (ip : IpAddr) : Bool := ip.octets.all (· == 0)

end Bqti.Dht

namespace Bqti.Network

open Bqti.Core Bqti.Dht

/-- An address is the node's own if it has the same port and its host is this one: the loopback, the
unspecified or the local address. -/
def isSelfConnection (peerAddr localAddr : SocketAddr) : Bool :=
  if peerAddr.port ≠ localAddr.port then false
  else peerAddr.ip.isLoopback || peerAddr.ip.isUnspecified || peerAddr.ip == localAddr.ip

/-- Where a call of `connect` stands: it has still to tell the local address; to look under both
read locks; to look again under the write lock; to take a number; to shake hands; to append the
connection; to take the address out of the set; it has returned. -/
inductive ConnectPc
  | start
  | check
  | recheck
  | dial
  | dialing (k : Nat)
  | created (k : Nat)
  | clear (ok : Bool)
  | returned (ok : Bool)
  deriving DecidableEq

/-- A call, and whether a connection to its peer was in the map at some moment of the call. -/
structure ConnectCall where
  peer : SocketAddr
  pc : ConnectPc
  seen : Bool
  deriving DecidableEq

/-- The manager of the connections, the set of addresses that are dialled, and the calls. -/
structure Connector where
  manager : Manager
  connecting : SocketAddr → Bool
  calls : List ConnectCall

/-- A step: a new call; a call goes on, with the outcome of what it waits for and the local address
that it is told; the manager makes a step of its own. -/
inductive ConnectLabel
  | call (peer : SocketAddr)
  | advance (i : Nat) (ok : Bool) (localAddr : Option SocketAddr)
  | manager (a : Label)

namespace ConnectPc

/-- The address of the call is in the set of dials. -/
def Dialing : ConnectPc → Prop
  | .dial | .dialing _ | .created _ | .clear _ => True
  | _ => False

/-- The connection that the call has made. -/
def conn : ConnectPc → Option Nat
  | .dialing k | .created k => some k
  | _ => none

/-- Whether a call is over. -/
def isReturned : ConnectPc → Bool
  | .returned _ => true
  | _ => false

end ConnectPc

/-- A call that has not returned sees whether there is a connection. -/
def ConnectCall.observe (m : Manager) (c : ConnectCall) : ConnectCall :=
  if c.pc.isReturned then c else { c with seen := c.seen || (m.connections c.peer).isSome }

namespace Connector

/-- No connections and no calls. -/
def start : Connector := ⟨.start, fun _ => false, []⟩

/-- One step of `connect`: the manager, the set of dials and where the call stands then. -/
def stepCall (s : Connector) (c : ConnectCall) (ok : Bool) (localAddr : Option SocketAddr) :
    Option (Manager × (SocketAddr → Bool) × ConnectPc) :=
  match c.pc with
  | .start =>
      match localAddr with
      | none => some (s.manager, s.connecting, .returned false)
      | some addr => some (s.manager, s.connecting,
          if isSelfConnection c.peer addr then .returned false else .check)
  | .check => some (s.manager, s.connecting,
      if (s.manager.connections c.peer).isSome || s.connecting c.peer then .returned true
      else .recheck)
  | .recheck =>
      if s.connecting c.peer then some (s.manager, s.connecting, .returned true)
      else some (s.manager, Function.update s.connecting c.peer true, .dial)
  | .dial => (s.manager.step (.dial c.peer)).map fun m =>
      (m, s.connecting, .dialing s.manager.conns.length)
  | .dialing k =>
      if ok then (s.manager.step (.create k)).map fun m => (m, s.connecting, .created k)
      else some (s.manager, s.connecting, .clear false)
  | .created k => (s.manager.step (.append k localAddr)).map fun m =>
      (m, s.connecting, .clear localAddr.isSome)
  | .clear result => some (s.manager, Function.update s.connecting c.peer false, .returned result)
  | .returned _ => none

/-- The step of the manager is not one of a connection that a call still works on. -/
def Foreign (s : Connector) : Label → Prop
  | .create k | .append k _ => ∀ c ∈ s.calls, c.pc.conn ≠ some k
  | _ => True

instance (s : Connector) : (a : Label) → Decidable (s.Foreign a)
  | .create k | .append k _ => inferInstanceAs (Decidable (∀ c ∈ s.calls, c.pc.conn ≠ some k))
  | .dial _ | .endLoop _ | .handle _ | .tell _ | .disconnect _ | .shutdown => .isTrue trivial

/-- The calls see the connections there are. -/
def observe (s : Connector) : Connector :=
  { s with calls := s.calls.map (ConnectCall.observe s.manager) }

/-- A new call, the next step of a call, or a step that others take on the manager. -/
def step (s : Connector) : ConnectLabel → Option Connector
  | .call peer =>
      some (Connector.mk s.manager s.connecting (s.calls ++ [⟨peer, .start, false⟩])).observe
  | .advance i ok localAddr => (s.calls[i]?).bind fun c =>
      (s.stepCall c ok localAddr).map fun (m, connecting, pc) =>
        (Connector.mk m connecting (s.calls.set i { c with pc := pc })).observe
  | .manager a =>
      if s.Foreign a then
        (s.manager.step a).map fun m => (Connector.mk m s.connecting s.calls).observe
      else none

/-- A call that has returned without an error saw a connection, and an address is in the set of
dials only while a call to it goes on. -/
structure Connects (s : Connector) : Prop where
  connected : ∀ c ∈ s.calls, c.pc = .returned true → c.seen = true
  cleared : ∀ addr, (∀ c ∈ s.calls, c.peer = addr → ∃ ok, c.pc = .returned ok) →
    s.connecting addr = false

/-- What a step must find: a call that comes upon a dial in progress, with no connection in the
map, saw a connection before. -/
def FindsConnection (s : Connector) : ConnectLabel → Prop
  | .advance i _ _ => ∀ c ∈ s.calls[i]?, s.connecting c.peer = true →
      (c.pc = .check ∧ s.manager.connections c.peer = none ∨ c.pc = .recheck) → c.seen = true
  | _ => True

instance (s : Connector) : (a : ConnectLabel) → Decidable (s.FindsConnection a)
  | .advance i _ _ => inferInstanceAs (Decidable (∀ c ∈ s.calls[i]?, _ → _ → _))
  | .call _ | .manager _ => .isTrue trivial

/-! ## What a step can do -/

/-- All that a step of a call can do. -/
inductive CallMove (s : Connector) (c : ConnectCall) :
    Manager → (SocketAddr → Bool) → ConnectPc → Prop
  | refused (pc : c.pc = .start) : CallMove s c s.manager s.connecting (.returned false)
  | entered (pc : c.pc = .start) : CallMove s c s.manager s.connecting .check
  | found (pc : c.pc = .check)
      (there : s.manager.connections c.peer ≠ none ∨ s.connecting c.peer = true) :
      CallMove s c s.manager s.connecting (.returned true)
  | absent (pc : c.pc = .check) (none : s.manager.connections c.peer = none)
      (free : s.connecting c.peer = false) : CallMove s c s.manager s.connecting .recheck
  | busy (pc : c.pc = .recheck) (busy : s.connecting c.peer = true) :
      CallMove s c s.manager s.connecting (.returned true)
  | claim (pc : c.pc = .recheck) (free : s.connecting c.peer = false) :
      CallMove s c s.manager (Function.update s.connecting c.peer true) .dial
  | dial {m : Manager} (pc : c.pc = .dial) (step : s.manager.step (.dial c.peer) = some m) :
      CallMove s c m s.connecting (.dialing s.manager.conns.length)
  | failed {k : Nat} (pc : c.pc = .dialing k) : CallMove s c s.manager s.connecting (.clear false)
  | create {k : Nat} {m : Manager} (pc : c.pc = .dialing k)
      (step : s.manager.step (.create k) = some m) : CallMove s c m s.connecting (.created k)
  | append {k : Nat} {m : Manager} {localAddr : Option SocketAddr} (pc : c.pc = .created k)
      (step : s.manager.step (.append k localAddr) = some m) :
      CallMove s c m s.connecting (.clear localAddr.isSome)
  | clear {result : Bool} (pc : c.pc = .clear result) :
      CallMove s c s.manager (Function.update s.connecting c.peer false) (.returned result)

variable {s s' : Connector} {c : ConnectCall} {ok : Bool} {localAddr : Option SocketAddr}
  {m : Manager} {connecting : SocketAddr → Bool} {pc : ConnectPc}

/-- A step of a call is one of its moves. -/
theorem stepCall_move (h : s.stepCall c ok localAddr = some (m, connecting, pc)) :
    CallMove s c m connecting pc := by
  cases hpc : c.pc with
  | start =>
    simp only [stepCall, hpc] at h
    split at h
    · obtain ⟨rfl, rfl, rfl⟩ := h
      exact .refused hpc
    · obtain ⟨rfl, rfl, rfl⟩ := h
      split
      · exact .refused hpc
      · exact .entered hpc
  | check =>
    simp only [stepCall, hpc, Option.some.injEq, Prod.mk.injEq] at h
    obtain ⟨rfl, rfl, rfl⟩ := h
    split
    · rename_i hthere
      rw [Bool.or_eq_true, Option.isSome_iff_ne_none] at hthere
      exact .found hpc hthere
    · rename_i hthere
      rw [Bool.or_eq_true, not_or, Option.not_isSome_iff_eq_none, Bool.not_eq_true] at hthere
      exact .absent hpc hthere.1 hthere.2
  | recheck =>
    simp only [stepCall, hpc] at h
    split at h
    · obtain ⟨rfl, rfl, rfl⟩ := h
      exact .busy hpc ‹_›
    · obtain ⟨rfl, rfl, rfl⟩ := h
      exact .claim hpc (Bool.eq_false_iff.mpr ‹_›)
  | dial =>
    simp only [stepCall, hpc] at h
    obtain ⟨m', hstep, he⟩ := Option.map_eq_some_iff.mp h
    obtain ⟨rfl, rfl, rfl⟩ := he
    exact .dial hpc hstep
  | dialing k =>
    simp only [stepCall, hpc] at h
    split at h
    · obtain ⟨m', hstep, he⟩ := Option.map_eq_some_iff.mp h
      obtain ⟨rfl, rfl, rfl⟩ := he
      exact .create hpc hstep
    · obtain ⟨rfl, rfl, rfl⟩ := h
      exact .failed hpc
  | created k =>
    simp only [stepCall, hpc] at h
    obtain ⟨m', hstep, he⟩ := Option.map_eq_some_iff.mp h
    obtain ⟨rfl, rfl, rfl⟩ := he
    exact .append hpc hstep
  | clear result =>
    simp only [stepCall, hpc, Option.some.injEq, Prod.mk.injEq] at h
    obtain ⟨rfl, rfl, rfl⟩ := h
    exact .clear hpc
  | returned result =>
    simp only [stepCall, hpc] at h
    cases h

end Connector

/-! ## What the manager keeps -/

namespace Manager

variable {m m' : Manager} {a : Label} {j k : Nat} {d : Connection}

/-- A change that keeps the peer of a connection keeps all peers. -/
theorem peer_modify (f : Connection → Connection) (hf : ∀ c, (f c).peer = c.peer)
    (hj : m.conns[j]? = some d) : ∃ d', (m.modify k f).conns[j]? = some d' ∧ d'.peer = d.peer := by
  rw [conns_modify, hj]
  refine ⟨_, rfl, ?_⟩
  split
  · exact hf d
  · rfl

/-- A new phase keeps all peers. -/
theorem peer_setPhase (phase : Phase) (hj : m.conns[j]? = some d) :
    ∃ d', (m.setPhase k phase).conns[j]? = some d' ∧ d'.peer = d.peer :=
  peer_modify _ (fun _ => rfl) hj

/-- An appended connection keeps all peers. -/
theorem peer_appendConnection (peerAddr : SocketAddr) (localAddr : Option SocketAddr)
    (hj : m.conns[j]? = some d) :
    ∃ d', (m.appendConnection k peerAddr localAddr).conns[j]? = some d' ∧ d'.peer = d.peer := by
  cases localAddr with
  | none => exact ⟨d, hj, rfl⟩
  | some localAddr =>
    simp only [appendConnection]
    split
    · exact ⟨d, hj, rfl⟩
    · split
      · exact peer_modify _ (fun _ => rfl) hj
      · exact peer_modify _ (fun _ => rfl) hj

/-- A connection stays one to its peer. -/
theorem Move.peer_kept (hmove : Move m a m') (hj : m.conns[j]? = some d) :
    ∃ d', m'.conns[j]? = some d' ∧ d'.peer = d.peer := by
  cases hmove with
  | dial =>
    exact ⟨d, (List.getElem?_append_left (List.getElem?_eq_some_iff.mp hj).1).trans hj, rfl⟩
  | create hk phase => exact peer_setPhase _ hj
  | @append k c localAddr hk phase =>
    obtain ⟨d', hd', hpeer⟩ := peer_modify (k := k) (fun c => { c with appended := true })
      (fun _ => rfl) hj
    obtain ⟨d'', hd'', hpeer'⟩ := peer_appendConnection (k := k) c.peer localAddr hd'
    exact ⟨d'', hd'', hpeer'.trans hpeer⟩
  | endLoop hk phase => exact peer_setPhase _ hj
  | stale hk phase other => exact peer_setPhase _ hj
  | removed hk phase entry hj' same => exact peer_setPhase _ hj
  | tell hk phase => exact peer_setPhase _ hj
  | absent entry => exact ⟨d, hj, rfl⟩
  | disconnect entry => exact peer_modify _ (fun _ => rfl) hj
  | shutdown =>
    have hclosed : m.shutdown.conns[j]? = (m.conns[j]?).map _ := List.getElem?_mapIdx
    rw [hclosed, hj]
    refine ⟨_, rfl, ?_⟩
    dsimp only
    split <;> rfl

/-- When a connection was appended, there is one to the peer, the new or the old. -/
theorem appendConnection_ne_none (peerAddr localAddr : SocketAddr) :
    (m.appendConnection k peerAddr (some localAddr)).connections peerAddr ≠ none := by
  simp only [appendConnection]
  split
  · rw [insert_connections_self]
    exact Option.some_ne_none k
  · rename_i old hold
    split
    · change m.connections peerAddr ≠ none
      rw [hold]
      exact Option.some_ne_none old
    · change (m.insert peerAddr k).connections peerAddr ≠ none
      rw [insert_connections_self]
      exact Option.some_ne_none k

end Manager

/-! ## Calls and connections -/

/-- Looking at the connections keeps the peer of a call. -/
theorem ConnectCall.peer_observe (m : Manager) (c : ConnectCall) : (c.observe m).peer = c.peer := by
  unfold observe
  split <;> rfl

/-- Looking at the connections moves no call on. -/
theorem ConnectCall.pc_observe (m : Manager) (c : ConnectCall) : (c.observe m).pc = c.pc := by
  unfold observe
  split <;> rfl

/-- A call that is over looks at nothing any more. -/
theorem ConnectCall.seen_observe_of_returned {m : Manager} {c : ConnectCall}
    (h : c.pc.isReturned = true) : (c.observe m).seen = c.seen := by
  rw [observe, if_pos h]

/-- A call has seen a connection if it had before or if there is one now. -/
theorem ConnectCall.seen_observe {m : Manager} {c : ConnectCall}
    (h : c.seen = true ∨ c.pc.isReturned = false ∧ m.connections c.peer ≠ none) :
    (c.observe m).seen = true := by
  unfold observe
  split
  · rename_i hret
    rcases h with h | ⟨hnot, -⟩
    · exact h
    · rw [hret] at hnot
      cases hnot
  · rcases h with h | ⟨-, h⟩
    · simp [h]
    · simp [Option.isSome_iff_ne_none.mpr h]

namespace Connector

/-- What holds in every state: a call that goes on has seen the connection there is, and one that
is about to return from its own dial has seen one; each address in the set of dials has a call that
dials it; and a call works on a connection to its own peer. -/
structure Tracks (s : Connector) : Prop where
  current : ∀ c ∈ s.calls, c.pc.isReturned = false →
    s.manager.connections c.peer ≠ none → c.seen = true
  dialled : ∀ c ∈ s.calls, c.pc = .clear true → c.seen = true
  holder : ∀ addr, s.connecting addr = true → ∃ c ∈ s.calls, c.peer = addr ∧ c.pc.Dialing
  owned : ∀ c ∈ s.calls, ∀ k, c.pc.conn = some k →
    ∃ d, s.manager.conns[k]? = some d ∧ d.peer = c.peer

variable {s s' : Connector} {c : ConnectCall} {m : Manager} {connecting : SocketAddr → Bool}
  {pc : ConnectPc}

/-- A connector without calls tracks them. -/
theorem tracks_start : start.Tracks where
  current _ hc := absurd hc List.not_mem_nil
  dialled _ hc := absurd hc List.not_mem_nil
  holder _ h := by cases h
  owned _ hc := absurd hc List.not_mem_nil

/-- The calls see the connections after each step. -/
theorem tracks_observe
    (hdialled : ∀ c ∈ s.calls, c.pc = .clear true →
      c.seen = true ∨ s.manager.connections c.peer ≠ none)
    (hholder : ∀ addr, s.connecting addr = true → ∃ c ∈ s.calls, c.peer = addr ∧ c.pc.Dialing)
    (howned : ∀ c ∈ s.calls, ∀ k, c.pc.conn = some k →
      ∃ d, s.manager.conns[k]? = some d ∧ d.peer = c.peer) : s.observe.Tracks where
  current := by
    intro c hc hgoing hthere
    obtain ⟨b, hb, rfl⟩ := List.mem_map.mp hc
    rw [ConnectCall.pc_observe] at hgoing
    rw [ConnectCall.peer_observe] at hthere
    exact ConnectCall.seen_observe (Or.inr ⟨hgoing, hthere⟩)
  dialled := by
    intro c hc hclear
    obtain ⟨b, hb, rfl⟩ := List.mem_map.mp hc
    rw [ConnectCall.pc_observe] at hclear
    refine ConnectCall.seen_observe ((hdialled b hb hclear).imp_right fun h => ⟨?_, h⟩)
    rw [hclear]
    rfl
  holder := by
    intro addr haddr
    obtain ⟨c, hc, hpeer, hdialing⟩ := hholder addr haddr
    refine ⟨c.observe s.manager, List.mem_map_of_mem hc, ?_⟩
    rw [ConnectCall.peer_observe, ConnectCall.pc_observe]
    exact ⟨hpeer, hdialing⟩
  owned := by
    intro c hc k hk
    obtain ⟨b, hb, rfl⟩ := List.mem_map.mp hc
    rw [ConnectCall.pc_observe] at hk
    rw [ConnectCall.peer_observe]
    exact howned b hb k hk

/-- A call that has returned sees nothing any more. -/
theorem connected_observe_iff : (∀ c ∈ s.observe.calls, c.pc = .returned true → c.seen = true) ↔
    ∀ c ∈ s.calls, c.pc = .returned true → c.seen = true := by
  have heq : ∀ c ∈ s.calls, c.pc = .returned true → (c.observe s.manager).seen = c.seen :=
    fun c _ hc => ConnectCall.seen_observe_of_returned (by rw [hc]; rfl)
  constructor
  · intro h c hc hret
    rw [← heq c hc hret]
    exact h _ (List.mem_map_of_mem hc) (by rwa [ConnectCall.pc_observe])
  · intro h c hc hret
    obtain ⟨b, hb, rfl⟩ := List.mem_map.mp hc
    rw [ConnectCall.pc_observe] at hret
    rw [heq b hb hret]
    exact h b hb hret

/-- No address stays in the set of dials. -/
theorem Tracks.cleared (h : s.Tracks) {addr : SocketAddr}
    (hall : ∀ c ∈ s.calls, c.peer = addr → ∃ ok, c.pc = .returned ok) :
    s.connecting addr = false := by
  refine Bool.eq_false_iff.mpr fun hdial => ?_
  obtain ⟨c, hc, hpeer, hdialing⟩ := h.holder addr hdial
  obtain ⟨ok, hret⟩ := hall c hc hpeer
  rw [hret] at hdialing
  exact hdialing

/-- Calls connect if each that says so has seen a connection. -/
theorem Tracks.connects_iff_connected (h : s.Tracks) :
    s.Connects ↔ ∀ c ∈ s.calls, c.pc = .returned true → c.seen = true :=
  ⟨Connects.connected, fun hconnected => ⟨hconnected, fun _ => h.cleared⟩⟩

/-! ## What one step does -/

/-- A move of a call keeps all peers. -/
theorem CallMove.peer_kept (hmove : CallMove s c m connecting pc) {k : Nat} {d : Connection}
    (hk : s.manager.conns[k]? = some d) : ∃ d', m.conns[k]? = some d' ∧ d'.peer = d.peer := by
  cases hmove with
  | dial _ step => exact (Manager.step_move step).peer_kept hk
  | create _ step => exact (Manager.step_move step).peer_kept hk
  | append _ step => exact (Manager.step_move step).peer_kept hk
  | refused | entered | found | absent | busy | claim | failed | clear => exact ⟨d, hk, rfl⟩

/-- A call dials a connection to its peer and goes on with it. -/
theorem CallMove.owned (hmove : CallMove s c m connecting pc)
    (howned : ∀ k, c.pc.conn = some k → ∃ d, s.manager.conns[k]? = some d ∧ d.peer = c.peer)
    {k : Nat} (hk : pc.conn = some k) : ∃ d, m.conns[k]? = some d ∧ d.peer = c.peer := by
  cases hmove with
  | dial _ step =>
    cases Manager.step_move step
    obtain rfl := Option.some.inj hk
    exact ⟨_, List.getElem?_concat_length, rfl⟩
  | create hpc step =>
    obtain rfl := Option.some.inj hk
    obtain ⟨d, hd, hpeer⟩ := howned _ (by rw [hpc]; rfl)
    obtain ⟨d', hd', hpeer'⟩ := (Manager.step_move step).peer_kept hd
    exact ⟨d', hd', hpeer'.trans hpeer⟩
  | refused | entered | found | absent | busy | claim | failed | append | clear => cases hk

/-- A call that has appended its connection has one in the map. -/
theorem CallMove.dialled (hmove : CallMove s c m connecting pc)
    (howned : ∀ k, c.pc.conn = some k → ∃ d, s.manager.conns[k]? = some d ∧ d.peer = c.peer)
    (hclear : pc = .clear true) : m.connections c.peer ≠ none := by
  cases hmove with
  | @append k m localAddr hpc step =>
    obtain ⟨d, hd, hpeer⟩ := howned k (by rw [hpc]; rfl)
    cases localAddr with
    | none => cases hclear
    | some localAddr =>
      cases Manager.step_move step with
      | append hk phase =>
        obtain rfl := Option.some.inj (hd.symm.trans hk)
        rw [← hpeer]
        exact Manager.appendConnection_ne_none d.peer localAddr
  | refused | entered | found | absent | busy | claim | dial | failed | create | clear =>
    cases hclear

/-- Who is in the set of dials afterwards: the call itself, or whom another call dials. -/
theorem CallMove.holder (hmove : CallMove s c m connecting pc) {addr : SocketAddr}
    (haddr : connecting addr = true) :
    addr = c.peer ∧ pc.Dialing ∨ s.connecting addr = true ∧ (addr = c.peer → ¬ c.pc.Dialing) := by
  have hself : pc.Dialing → s.connecting addr = true →
      addr = c.peer ∧ pc.Dialing ∨ s.connecting addr = true ∧ (addr = c.peer → ¬ c.pc.Dialing) := by
    intro hdialing hold
    by_cases hpeer : addr = c.peer
    · exact Or.inl ⟨hpeer, hdialing⟩
    · exact Or.inr ⟨hold, fun h => absurd h hpeer⟩
  cases hmove with
  | refused hpc => exact Or.inr ⟨haddr, fun _ => by rw [hpc]; exact id⟩
  | entered hpc => exact Or.inr ⟨haddr, fun _ => by rw [hpc]; exact id⟩
  | found hpc there => exact Or.inr ⟨haddr, fun _ => by rw [hpc]; exact id⟩
  | absent hpc none free => exact Or.inr ⟨haddr, fun _ => by rw [hpc]; exact id⟩
  | busy hpc busy => exact Or.inr ⟨haddr, fun _ => by rw [hpc]; exact id⟩
  | claim hpc free =>
    by_cases hpeer : addr = c.peer
    · exact Or.inl ⟨hpeer, trivial⟩
    · rw [Function.update_of_ne hpeer] at haddr
      exact Or.inr ⟨haddr, fun h => absurd h hpeer⟩
  | dial => exact hself trivial haddr
  | failed => exact hself trivial haddr
  | create => exact hself trivial haddr
  | append => exact hself trivial haddr
  | clear hpc =>
    have hpeer : addr ≠ c.peer := by
      rintro rfl
      rw [Function.update_self] at haddr
      cases haddr
    rw [Function.update_of_ne hpeer] at haddr
    exact Or.inr ⟨haddr, fun h => absurd h hpeer⟩

/-- A call returns without an error and unseeing just when it comes upon a dial in progress. -/
theorem CallMove.seen_iff (hmove : CallMove s c m connecting pc) (hs : s.Tracks)
    (hc : c ∈ s.calls) : (pc = .returned true → c.seen = true) ↔
      (s.connecting c.peer = true → (c.pc = .check ∧ s.manager.connections c.peer = none ∨
        c.pc = .recheck) → c.seen = true) := by
  cases hmove with
  | found hpc there =>
    simp only [hpc, true_and, or_false, reduceCtorEq, forall_true_left]
    have hseen := hs.current c hc (by rw [hpc]; rfl)
    constructor
    · exact fun h _ _ => h
    · intro h
      rcases there with hthere | hdial
      · exact hseen hthere
      · by_cases hnone : s.manager.connections c.peer = none
        · exact h hdial hnone
        · exact hseen hnone
  | busy hpc busy => simp [hpc, busy]
  | absent hpc none free => simp [free]
  | claim hpc free => simp [free]
  | @clear result hpc =>
    simp only [hpc, ConnectPc.returned.injEq, reduceCtorEq, false_and, or_self, false_implies,
      implies_true, iff_true]
    rintro rfl
    exact hs.dialled c hc hpc
  | refused hpc | entered hpc | dial hpc | failed hpc | create hpc | append hpc => simp [hpc]

/-- A call takes one of its moves, and all calls look at the connections. -/
theorem of_step_advance {i : Nat} {ok : Bool} {localAddr : Option SocketAddr}
    (h : s.step (.advance i ok localAddr) = some s') :
    ∃ c m connecting pc, s.calls[i]? = some c ∧ CallMove s c m connecting pc ∧
      s' = (Connector.mk m connecting (s.calls.set i { c with pc := pc })).observe := by
  obtain ⟨c, hc, h⟩ := Option.bind_eq_some_iff.mp h
  obtain ⟨⟨m, connecting, pc⟩, hstep, rfl⟩ := Option.map_eq_some_iff.mp h
  exact ⟨c, m, connecting, pc, hc, stepCall_move hstep, rfl⟩

/-- The manager takes a step, and all calls look at the connections. -/
theorem of_step_manager {a : Label} (h : s.step (.manager a) = some s') :
    ∃ m, s.manager.step a = some m ∧ s' = (Connector.mk m s.connecting s.calls).observe := by
  obtain ⟨-, h⟩ := Option.ite_none_right_eq_some.mp h
  obtain ⟨m, hstep, rfl⟩ := Option.map_eq_some_iff.mp h
  exact ⟨m, hstep, rfl⟩

/-- Every step keeps track of the connections. -/
theorem Tracks.step (hs : s.Tracks) {a : ConnectLabel} (h : s.step a = some s') : s'.Tracks := by
  cases a with
  | call peer =>
    obtain rfl := Option.some.inj h
    refine tracks_observe ?_ (fun addr haddr => ?_) ?_
    · exact forall_mem_concat (fun c hc hclear => Or.inl (hs.dialled c hc hclear))
        fun hclear => by cases hclear
    · obtain ⟨c, hc, hpeer⟩ := hs.holder addr haddr
      exact ⟨c, List.mem_append_left _ hc, hpeer⟩
    · exact forall_mem_concat hs.owned fun k hk => by cases hk
  | advance i ok localAddr =>
    obtain ⟨c, m, connecting, pc, hi, hmove, rfl⟩ := of_step_advance h
    have hc := List.mem_of_getElem? hi
    refine tracks_observe ?_ (fun addr haddr => ?_) ?_
    · exact forall_mem_set (fun d hd hclear => Or.inl (hs.dialled d hd hclear))
        fun hclear => Or.inr (hmove.dialled (hs.owned c hc) hclear)
    · rcases hmove.holder haddr with ⟨hpeer, hdialing⟩ | ⟨hold, hother⟩
      · exact ⟨{ c with pc := pc }, mem_set_new hi, hpeer.symm, hdialing⟩
      · obtain ⟨d, hd, hpeer, hdialing⟩ := hs.holder addr hold
        rcases eq_or_mem_set (y := { c with pc := pc }) hi hd with rfl | hd
        · exact absurd hdialing (hother hpeer.symm)
        · exact ⟨d, hd, hpeer, hdialing⟩
    · refine forall_mem_set (fun d hd k hk => ?_) fun k hk => hmove.owned (hs.owned c hc) hk
      obtain ⟨e, he, hpeer⟩ := hs.owned d hd k hk
      obtain ⟨e', he', hpeer'⟩ := hmove.peer_kept he
      exact ⟨e', he', hpeer'.trans hpeer⟩
  | manager a =>
    obtain ⟨m, hstep, rfl⟩ := of_step_manager h
    refine tracks_observe (fun c hc hclear => Or.inl (hs.dialled c hc hclear)) hs.holder
      fun c hc k hk => ?_
    obtain ⟨d, hd, hpeer⟩ := hs.owned c hc k hk
    obtain ⟨d', hd', hpeer'⟩ := (Manager.step_move hstep).peer_kept hd
    exact ⟨d', hd', hpeer'.trans hpeer⟩

/-- A step keeps the promise of `connect` just when its condition is met. -/
theorem connects_step_iff (hs : s.Tracks) (hconnects : s.Connects) {a : ConnectLabel}
    (h : s.step a = some s') : s'.Connects ↔ s.FindsConnection a := by
  rw [(hs.step h).connects_iff_connected]
  cases a with
  | call peer =>
    obtain rfl := Option.some.inj h
    rw [connected_observe_iff]
    exact iff_of_true (forall_mem_concat hconnects.connected fun hret => by cases hret) trivial
  | advance i ok localAddr =>
    obtain ⟨c, m, connecting, pc, hi, hmove, rfl⟩ := of_step_advance h
    rw [connected_observe_iff]
    have hiff := hmove.seen_iff hs (List.mem_of_getElem? hi)
    constructor
    · intro hall d hd
      obtain rfl := Option.some.inj (hi.symm.trans hd)
      exact hiff.mp (hall _ (mem_set_new hi))
    · exact fun hfinds => forall_mem_set hconnects.connected (hiff.mpr (hfinds c hi))
  | manager a =>
    obtain ⟨m, hstep, rfl⟩ := of_step_manager h
    rw [connected_observe_iff]
    exact iff_of_true hconnects.connected trivial

/-- For any calls in any order, with whatever else the manager does: in every state reached the
calls that returned without an error saw a connection to their peer, and an address to which all
calls have returned is not in the set of dials, precisely when no call comes upon a dial in
progress before it has seen a connection. -/
theorem connects_iff (labels : List ConnectLabel) {t : Connector}
    (hrun : run step start labels = some t) :
    (∀ pre post u, labels = pre ++ post → run step start pre = some u → u.Connects) ↔
      Along step FindsConnection start labels := by
  refine forall_reached_iff_along (fun (s : Connector) (h : s.Connects ∧ s.Tracks) => h.1)
    (fun s a s' h hstep => ?_) ⟨?_, tracks_start⟩ hrun
  · exact ⟨connects_step_iff h.2 h.1 hstep, fun hc => ⟨hc, h.2.step hstep⟩⟩
  · exact tracks_start.connects_iff_connected.mpr fun c hc => absurd hc List.not_mem_nil

/-- Two calls, the second after the first has connected. -/
def oneAfterTheOther : List ConnectLabel :=
  [.call samplePeer, .advance 0 true (some sampleLocal), .advance 0 true none,
    .advance 0 true none, .advance 0 true none, .advance 0 true none,
    .advance 0 true (some sampleLocal), .call samplePeer, .advance 1 true (some sampleLocal),
    .advance 1 true none, .advance 0 true none]

/-- Two calls one after the other both connect. -/
theorem connects_oneAfterTheOther : ∃ t, run step start oneAfterTheOther = some t ∧
    t.calls.map (·.pc) = [.returned true, .returned true] ∧ t.Connects := by
  have hends : ((run step start oneAfterTheOther).any fun t =>
      decide (t.calls.map (·.pc) = [.returned true, .returned true])) = true := by
    decide +kernel
  obtain ⟨t, ht, hpcs⟩ := exists_of_any hends
  refine ⟨t, ht, hpcs, ?_⟩
  exact (connects_iff oneAfterTheOther ht).mpr (by decide +kernel) oneAfterTheOther [] t
    (List.append_nil _).symm ht

/-- The second call comes while the first one dials, and returns without an error; then the dial
fails. -/
theorem returned_without_connection : ∃ t, run step start
    [.call samplePeer, .advance 0 true (some sampleLocal), .advance 0 true none,
      .advance 0 true none, .advance 0 true none, .call samplePeer,
      .advance 1 true (some sampleLocal), .advance 1 true none, .advance 0 false none,
      .advance 0 true none] = some t ∧
    t.calls.map (·.pc) = [.returned false, .returned true] ∧ t.calls.map (·.seen) = [false, false] ∧
    ¬ t.Connects := by
  have hends : ((run step start
      [.call samplePeer, .advance 0 true (some sampleLocal), .advance 0 true none,
        .advance 0 true none, .advance 0 true none, .call samplePeer,
        .advance 1 true (some sampleLocal), .advance 1 true none, .advance 0 false none,
        .advance 0 true none]).any fun t =>
      decide (t.calls = [⟨samplePeer, .returned false, false⟩,
        ⟨samplePeer, .returned true, false⟩])) = true := by
    decide +kernel
  obtain ⟨t, ht, hcalls⟩ := exists_of_any hends
  refine ⟨t, ht, by rw [hcalls]; rfl, by rw [hcalls]; rfl, fun h => ?_⟩
  have hseen := h.connected ⟨samplePeer, .returned true, false⟩
    (hcalls ▸ List.mem_cons_of_mem _ (List.mem_singleton_self _)) rfl
  cases hseen

end Connector

end Bqti.Network
