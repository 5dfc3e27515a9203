import Mathlib.Data.List.Lex
import Mathlib.Data.List.Nodup
import Mathlib.Data.Prod.Lex
import Mathlib.Logic.Function.Basic
import Bqti.Core.Pool
import Bqti.Core.Run
import Bqti.Dht.Auth.Manager

/-!
# The connections of a node

A node keeps at most one connection for an address. A connection has a task of its own from the
moment it is made, and is put into the map afterwards; of two connections to one address the
smaller side keeps the old and the greater side the new one, and the other is closed. When the
task of a connection ends, a handler is started that takes the connection out of the map, if it
is the one the map holds, and then tells the sessions.

Every step that takes the lock of the map is one step here, and so is every end of a task. What
the handlers have taken out of the map and told is written down beside the state.
-/

/-! ## The order of addresses -/

namespace Bqti.Dht

/-- Version 4 comes before version 6. -/
def IpAddr.version : IpAddr → Nat
  | .v4 _ => 4
  | .v6 _ => 6

/-- Addresses are compared by version, then by octets, then by port. -/
def SocketAddr.rank (addr : SocketAddr) : ℕ ×ₗ (List ℕ ×ₗ ℕ) :=
  toLex (addr.ip.version, toLex (addr.ip.octets.map UInt8.toNat, addr.port.toNat))

/-- Different addresses have different ranks. -/
theorem SocketAddr.rank_injective : Function.Injective SocketAddr.rank := by
  rintro ⟨ip, port⟩ ⟨ip', port'⟩ h
  obtain ⟨hversion, h⟩ := Prod.mk.inj (toLex.injective h)
  obtain ⟨hoctets, hport⟩ := Prod.mk.inj (toLex.injective h)
  have hinj : Function.Injective UInt8.toNat := fun _ _ => UInt8.toNat_inj.mp
  have hlist := List.map_injective_iff.mpr hinj hoctets
  have hip : ip = ip' := by
    cases ip with
    | v4 octets =>
      cases ip' with
      | v4 octets' => exact congrArg _ (Vector.toList_inj.mp hlist)
      | v6 octets' => cases hversion
    | v6 octets =>
      cases ip' with
      | v4 octets' => cases hversion
      | v6 octets' => exact congrArg _ (Vector.toList_inj.mp hlist)
  have hport' : port = port' := UInt16.toNat_inj.mp hport
  rw [hip, hport']

instance : LT SocketAddr := ⟨fun a b => a.rank < b.rank⟩

instance (a b : SocketAddr) : Decidable (a < b) := inferInstanceAs (Decidable (a.rank < b.rank))

/-- Of two different addresses one is smaller. -/
theorem SocketAddr.lt_or_gt_of_ne {a b : SocketAddr} (h : a ≠ b) : a < b ∨ b < a :=
  Ne.lt_or_gt (a := a.rank) fun hrank => h (SocketAddr.rank_injective hrank)

/-- Of two addresses at most one is smaller. -/
theorem SocketAddr.not_lt_of_gt {a b : SocketAddr} (h : b < a) : ¬ a < b :=
  fun hlt => lt_asymm (a := a.rank) hlt h

end Bqti.Dht

namespace Bqti.Network

open Bqti.Core Bqti.Dht

/-! ## Connections and their manager -/

/-- How far a connection has come: its number is taken; its task runs; its task has ended and the
handler waits for the lock; the handler has taken it out of the map and is about to tell; the
handler is done. -/
inductive Phase
  | dialing
  | running
  | leaving
  | notifying
  | finished
  deriving DecidableEq

/-- A connection to a peer, whether it was appended, and whether this side has closed it. -/
structure Connection where
  id : Nat
  peer : SocketAddr
  phase : Phase
  appended : Bool
  closed : Bool
  deriving DecidableEq

/-- The task of the connection has ended. -/
def Connection.Ended (c : Connection) : Prop :=
  c.phase = .leaving ∨ c.phase = .notifying ∨ c.phase = .finished

/-- What the handlers do: the handler of one connection takes an entry out of the map, or tells
the sessions that an address is gone. -/
inductive Event
  | removed (addr : SocketAddr) (entry handler : Nat)
  | told (addr : SocketAddr) (handler : Nat)
  deriving DecidableEq

/-- The map from addresses to connections, the counter of identifiers, every connection that was
made, and what the handlers have done. -/
structure Manager where
  connections : SocketAddr → Option Nat
  nextId : Nat
  conns : List Connection
  log : List Event

/-- A step of a node. -/
inductive Label
  | dial (addr : SocketAddr)
  | create (k : Nat)
  | append (k : Nat) (localAddr : Option SocketAddr)
  | endLoop (k : Nat)
  | handle (k : Nat)
  | tell (k : Nat)
  | disconnect (addr : SocketAddr)
  | shutdown

namespace Manager

/-- A node without connections. -/
def start : Manager := ⟨fun _ => none, 0, [], []⟩

/-- Change one connection. -/
def modify (m : Manager) (k : Nat) (f : Connection → Connection) : Manager :=
  { m with conns := m.conns.modify k f }

/-- Move a connection to another phase. -/
def setPhase (m : Manager) (k : Nat) (phase : Phase) : Manager :=
  m.modify k fun c => { c with phase := phase }

/-- Close a connection: its token is cancelled and the peer is told. -/
def close (m : Manager) (k : Nat) : Manager := m.modify k fun c => { c with closed := true }

/-- Put a connection into the map. -/
def insert (m : Manager) (addr : SocketAddr) (k : Nat) : Manager :=
  { m with connections := Function.update m.connections addr (some k) }

/-- Take what there is for an address out of the map. -/
def remove (m : Manager) (addr : SocketAddr) : Manager :=
  { m with connections := Function.update m.connections addr none }

/-- Append a connection. Nothing happens if the local address cannot be told; if the map has a
connection for the peer, the smaller side closes the new one and the greater side the old one. -/
def appendConnection (m : Manager) (k : Nat) (peerAddr : SocketAddr) :
    Option SocketAddr → Manager
  | none => m
  | some localAddr =>
      match m.connections peerAddr with
      | none => m.insert peerAddr k
      | some old =>
          if localAddr < peerAddr then m.close k else (m.insert peerAddr k).close old

/-- The identifier of the connection that the map has for an address. -/
def entryId (m : Manager) (addr : SocketAddr) : Option Nat :=
  (m.connections addr).bind fun j => (m.conns[j]?).map (·.id)

/-- What the handler of a connection does under the lock. -/
def onDisconnect (m : Manager) (k : Nat) (addr : SocketAddr) (connectionId : Nat) : Manager :=
  if m.entryId addr ≠ some connectionId then m.setPhase k .finished
  else
    { (m.remove addr).setPhase k .notifying with
      log := m.log ++ ((m.connections addr).map fun j => .removed addr j k).toList }

/-- Take a connection out of the map and close it. -/
def disconnect (m : Manager) (addr : SocketAddr) : Manager :=
  match m.connections addr with
  | none => m
  | some k => (m.remove addr).close k

/-- Take all connections out of the map and close them. -/
def shutdown (m : Manager) : Manager :=
  { m with
    connections := fun _ => none
    conns := m.conns.mapIdx fun k c =>
      if m.connections c.peer = some k then { c with closed := true } else c }

/-- One step. -/
def step (m : Manager) : Label → Option Manager
  | .dial addr => some { m with
      nextId := m.nextId + 1
      conns := m.conns ++ [⟨m.nextId, addr, .dialing, false, false⟩] }
  | .create k => (m.conns[k]?).bind fun c =>
      if c.phase = .dialing then some (m.setPhase k .running) else none
  | .append k localAddr => (m.conns[k]?).bind fun c =>
      if c.phase ≠ .dialing ∧ c.appended = false then
        some ((m.modify k fun c => { c with appended := true }).appendConnection k c.peer localAddr)
      else none
  | .endLoop k => (m.conns[k]?).bind fun c =>
      if c.phase = .running then some (m.setPhase k .leaving) else none
  | .handle k => (m.conns[k]?).bind fun c =>
      if c.phase = .leaving then some (m.onDisconnect k c.peer c.id) else none
  | .tell k => (m.conns[k]?).bind fun c =>
      if c.phase = .notifying then
        some { m.setPhase k .finished with log := m.log ++ [.told c.peer k] }
      else none
  | .disconnect addr => some (m.disconnect addr)
  | .shutdown => some m.shutdown

/-! ## What a step can do -/

/-- All that a step can do. -/
inductive Move (m : Manager) : Label → Manager → Prop
  | dial {addr : SocketAddr} : Move m (.dial addr) { m with
      nextId := m.nextId + 1
      conns := m.conns ++ [⟨m.nextId, addr, .dialing, false, false⟩] }
  | create {k : Nat} {c : Connection} (hk : m.conns[k]? = some c) (phase : c.phase = .dialing) :
      Move m (.create k) (m.setPhase k .running)
  | append {k : Nat} {c : Connection} {localAddr : Option SocketAddr}
      (hk : m.conns[k]? = some c) (phase : c.phase ≠ .dialing) :
      Move m (.append k localAddr)
        ((m.modify k fun c => { c with appended := true }).appendConnection k c.peer localAddr)
  | endLoop {k : Nat} {c : Connection} (hk : m.conns[k]? = some c) (phase : c.phase = .running) :
      Move m (.endLoop k) (m.setPhase k .leaving)
  | stale {k : Nat} {c : Connection} (hk : m.conns[k]? = some c) (phase : c.phase = .leaving)
      (other : m.entryId c.peer ≠ some c.id) : Move m (.handle k) (m.setPhase k .finished)
  | removed {k j : Nat} {c d : Connection} (hk : m.conns[k]? = some c)
      (phase : c.phase = .leaving) (entry : m.connections c.peer = some j)
      (hj : m.conns[j]? = some d) (same : d.id = c.id) :
      Move m (.handle k) { (m.remove c.peer).setPhase k .notifying with
        log := m.log ++ [.removed c.peer j k] }
  | tell {k : Nat} {c : Connection} (hk : m.conns[k]? = some c) (phase : c.phase = .notifying) :
      Move m (.tell k) { m.setPhase k .finished with log := m.log ++ [.told c.peer k] }
  | absent {addr : SocketAddr} (entry : m.connections addr = none) : Move m (.disconnect addr) m
  | disconnect {addr : SocketAddr} {k : Nat} (entry : m.connections addr = some k) :
      Move m (.disconnect addr) ((m.remove addr).close k)
  | shutdown : Move m .shutdown m.shutdown

variable {m m' : Manager} {a : Label}

/-- The end of a connection is one of the moves. -/
theorem onDisconnect_move {k : Nat} {c : Connection} (hk : m.conns[k]? = some c)
    (hphase : c.phase = .leaving) : Move m (.handle k) (m.onDisconnect k c.peer c.id) := by
  unfold onDisconnect
  split
  · rename_i hother
    exact .stale hk hphase hother
  · rename_i hsame
    obtain ⟨j, hentry, hid⟩ := Option.bind_eq_some_iff.mp (not_not.mp hsame)
    obtain ⟨d, hj, hsame⟩ := Option.map_eq_some_iff.mp hid
    rw [hentry]
    exact .removed hk hphase hentry hj hsame

/-- Every step is one of the moves. -/
theorem step_move (h : step m a = some m') : Move m a m' := by
  cases a with
  | dial addr =>
    obtain rfl := Option.some.inj h
    exact .dial
  | create k =>
    obtain ⟨c, hk, hs⟩ := Option.bind_eq_some_iff.mp h
    obtain ⟨hphase, he⟩ := Option.ite_none_right_eq_some.mp hs
    obtain rfl := Option.some.inj he
    exact .create hk hphase
  | append k localAddr =>
    obtain ⟨c, hk, hs⟩ := Option.bind_eq_some_iff.mp h
    obtain ⟨hphase, he⟩ := Option.ite_none_right_eq_some.mp hs
    obtain rfl := Option.some.inj he
    exact .append hk hphase.1
  | endLoop k =>
    obtain ⟨c, hk, hs⟩ := Option.bind_eq_some_iff.mp h
    obtain ⟨hphase, he⟩ := Option.ite_none_right_eq_some.mp hs
    obtain rfl := Option.some.inj he
    exact .endLoop hk hphase
  | handle k =>
    obtain ⟨c, hk, hs⟩ := Option.bind_eq_some_iff.mp h
    obtain ⟨hphase, he⟩ := Option.ite_none_right_eq_some.mp hs
    obtain rfl := Option.some.inj he
    exact onDisconnect_move hk hphase
  | tell k =>
    obtain ⟨c, hk, hs⟩ := Option.bind_eq_some_iff.mp h
    obtain ⟨hphase, he⟩ := Option.ite_none_right_eq_some.mp hs
    obtain rfl := Option.some.inj he
    exact .tell hk hphase
  | disconnect addr =>
    obtain rfl := Option.some.inj h
    unfold disconnect
    split
    · rename_i hentry
      exact .absent hentry
    · rename_i k hentry
      exact .disconnect hentry
  | shutdown =>
    obtain rfl := Option.some.inj h
    exact .shutdown

@[simp] theorem insert_connections_self (m : Manager) (addr : SocketAddr) (k : Nat) :
    (m.insert addr k).connections addr = some k := Function.update_self ..

/-- An insertion changes the entry of its own address only. -/
theorem insert_connections_of_ne {addr addr' : SocketAddr} (h : addr' ≠ addr) (k : Nat) :
    (m.insert addr k).connections addr' = m.connections addr' := Function.update_of_ne h ..

@[simp] theorem remove_connections_self (m : Manager) (addr : SocketAddr) :
    (m.remove addr).connections addr = none := Function.update_self ..

/-- A removal changes the entry of its own address only. -/
theorem remove_connections_of_ne {addr addr' : SocketAddr} (h : addr' ≠ addr) :
    (m.remove addr).connections addr' = m.connections addr' := Function.update_of_ne h ..

/-- Changing one connection changes no other. -/
theorem conns_modify (m : Manager) (k : Nat) (f : Connection → Connection) (j : Nat) :
    (m.modify k f).conns[j]? = (m.conns[j]?).map fun c => if k = j then f c else c :=
  List.getElem?_modify ..

/-! ## Whose entry a handler takes -/

/-- Identifiers are distinct, an entry of the map is a connection to that address, and handlers
have taken out and told only what was their own and had ended. -/
structure Sound (m : Manager) : Prop where
  distinct : (m.conns.map (·.id)).Nodup
  bound : ∀ c ∈ m.conns, c.id < m.nextId
  entries : ∀ addr k, m.connections addr = some k → ∃ c, m.conns[k]? = some c ∧ c.peer = addr
  notifying : ∀ k c, m.conns[k]? = some c → c.phase = .notifying → .removed c.peer k k ∈ m.log
  removed : ∀ addr j k, .removed addr j k ∈ m.log →
    j = k ∧ ∃ c, m.conns[k]? = some c ∧ c.peer = addr ∧ c.Ended
  told : ∀ addr k, .told addr k ∈ m.log → .removed addr k k ∈ m.log

/-- A manager starts sound. -/
theorem sound_start : Sound start := by
  refine ⟨List.nodup_nil, by simp [start], ?_, by simp [start], by simp [start], by simp [start]⟩
  intro addr k h
  cases h

/-- A connection is known by its identifier. -/
theorem Sound.eq_of_id (h : Sound m) {j k : Nat} {c d : Connection} (hk : m.conns[k]? = some c)
    (hj : m.conns[j]? = some d) (hid : d.id = c.id) : j = k := by
  obtain ⟨hjlt, rfl⟩ := List.getElem?_eq_some_iff.mp hj
  obtain ⟨hklt, rfl⟩ := List.getElem?_eq_some_iff.mp hk
  have hj' : j < (m.conns.map (·.id)).length := by simpa using hjlt
  have hk' : k < (m.conns.map (·.id)).length := by simpa using hklt
  have hids : (m.conns.map (·.id))[j] = (m.conns.map (·.id))[k] := by simpa using hid
  exact h.distinct.getElem_inj_iff.mp hids

/-- Connections that keep their identifier and peer, never come back and tell only what they have
taken out keep the manager sound. -/
theorem Sound.mapConns (h : Sound m) {conns : List Connection}
    {g : Nat → Connection → Connection} (hg : ∀ j, conns[j]? = (m.conns[j]?).map (g j))
    (hid : ∀ j c, (g j c).id = c.id) (hpeer : ∀ j c, (g j c).peer = c.peer)
    (hended : ∀ j c, m.conns[j]? = some c → c.Ended → (g j c).Ended)
    (htell : ∀ j c, m.conns[j]? = some c → (g j c).phase = .notifying →
      .removed c.peer j j ∈ m.log) :
    Sound { m with conns := conns } where
  distinct := by
    have hids : conns.map (·.id) = m.conns.map (·.id) := by
      apply List.ext_getElem?
      intro j
      rw [List.getElem?_map, hg, List.getElem?_map, Option.map_map]
      congr 1
      funext c
      exact hid j c
    rw [hids]
    exact h.distinct
  bound := by
    intro c' hc'
    obtain ⟨j, hj⟩ := List.getElem?_of_mem hc'
    rw [hg] at hj
    obtain ⟨c, hc, rfl⟩ := Option.map_eq_some_iff.mp hj
    rw [hid]
    exact h.bound c (List.mem_of_getElem? hc)
  entries := by
    intro addr k hk
    obtain ⟨c, hc, hp⟩ := h.entries addr k hk
    refine ⟨g k c, ?_, (hpeer k c).trans hp⟩
    rw [hg, hc]
    rfl
  notifying := by
    intro k c' hc' hphase
    rw [hg] at hc'
    obtain ⟨c, hc, rfl⟩ := Option.map_eq_some_iff.mp hc'
    rw [hpeer]
    exact htell k c hc hphase
  removed := by
    intro addr j k hmem
    obtain ⟨hjk, c, hc, hp, he⟩ := h.removed addr j k hmem
    refine ⟨hjk, g k c, ?_, (hpeer k c).trans hp, hended k c hc he⟩
    rw [hg, hc]
    rfl
  told := h.told

/-- Changing one connection. -/
theorem Sound.modify (h : Sound m) {k : Nat} {f : Connection → Connection}
    (hid : ∀ c, (f c).id = c.id) (hpeer : ∀ c, (f c).peer = c.peer)
    (hended : ∀ c, m.conns[k]? = some c → c.Ended → (f c).Ended)
    (htell : ∀ c, m.conns[k]? = some c → (f c).phase = .notifying →
      .removed c.peer k k ∈ m.log) :
    Sound (m.modify k f) := by
  refine h.mapConns (conns_modify m k f) (fun j c => ?_) (fun j c => ?_) (fun j c hj => ?_)
    (fun j c hj => ?_)
  · split
    · exact hid c
    · rfl
  · split
    · exact hpeer c
    · rfl
  · split
    · rename_i hkj
      exact hended c (hkj ▸ hj)
    · exact id
  · split
    · rename_i hkj
      subst hkj
      exact htell c hj
    · exact h.notifying j c hj

/-- Closing and appending leave the phase alone. -/
theorem Sound.modify_phase (h : Sound m) (k : Nat) {f : Connection → Connection}
    (hid : ∀ c, (f c).id = c.id) (hpeer : ∀ c, (f c).peer = c.peer)
    (hphase : ∀ c, (f c).phase = c.phase) : Sound (m.modify k f) := by
  refine h.modify hid hpeer (fun c _ he => ?_) (fun c hc he => ?_)
  · simpa only [Connection.Ended, hphase] using he
  · exact h.notifying k c hc ((hphase c).symm.trans he)

/-- Closing a connection keeps a manager sound. -/
theorem Sound.close (h : Sound m) (k : Nat) : Sound (m.close k) :=
  h.modify_phase k (fun _ => rfl) (fun _ => rfl) fun _ => rfl

/-- Moving a connection on. -/
theorem Sound.setPhase (h : Sound m) {k : Nat} {c : Connection} {phase : Phase}
    (hk : m.conns[k]? = some c) (hended : c.Ended → phase = .notifying ∨ phase = .finished)
    (htell : phase = .notifying → .removed c.peer k k ∈ m.log) : Sound (m.setPhase k phase) := by
  refine h.modify (fun _ => rfl) (fun _ => rfl) (fun d hd he => ?_) (fun d hd he => ?_)
  · obtain rfl := Option.some.inj (hk.symm.trans hd)
    exact Or.inr (hended he)
  · obtain rfl := Option.some.inj (hk.symm.trans hd)
    exact htell he

/-- Inserting a connection under its peer keeps a manager sound. -/
theorem Sound.insert (h : Sound m) {k : Nat} {c : Connection} (hk : m.conns[k]? = some c) :
    Sound (m.insert c.peer k) := by
  refine ⟨h.distinct, h.bound, fun addr j hj => ?_, h.notifying, h.removed, h.told⟩
  by_cases haddr : addr = c.peer
  · subst haddr
    rw [insert_connections_self] at hj
    exact ⟨c, Option.some.inj hj ▸ hk, rfl⟩
  · rw [insert_connections_of_ne haddr] at hj
    exact h.entries addr j hj

/-- Removing an entry keeps a manager sound. -/
theorem Sound.remove (h : Sound m) (addr : SocketAddr) : Sound (m.remove addr) := by
  refine ⟨h.distinct, h.bound, fun addr' j hj => ?_, h.notifying, h.removed, h.told⟩
  by_cases haddr : addr' = addr
  · rw [haddr, remove_connections_self] at hj
    cases hj
  · rw [remove_connections_of_ne haddr] at hj
    exact h.entries addr' j hj

/-- Appending a connection. -/
theorem Sound.appendConnection (h : Sound m) {k : Nat} {c : Connection}
    (hk : m.conns[k]? = some c) (localAddr : Option SocketAddr) :
    Sound (m.appendConnection k c.peer localAddr) := by
  cases localAddr with
  | none => exact h
  | some localAddr =>
    simp only [Manager.appendConnection]
    split
    · exact h.insert hk
    · split
      · exact h.close k
      · exact (h.insert hk).close _

/-- A handler takes out its own connection, which has ended. -/
theorem Sound.logRemoved (h : Sound m) {k : Nat} {c : Connection} (hk : m.conns[k]? = some c)
    (hended : c.Ended) : Sound { m with log := m.log ++ [.removed c.peer k k] } where
  distinct := h.distinct
  bound := h.bound
  entries := h.entries
  notifying := fun j d hj hd => List.mem_append_left _ (h.notifying j d hj hd)
  removed := by
    intro addr j i hmem
    rcases List.mem_append.mp hmem with hmem | hmem
    · exact h.removed addr j i hmem
    · obtain ⟨rfl, rfl, rfl⟩ := Event.removed.inj (List.mem_singleton.mp hmem)
      exact ⟨rfl, c, hk, rfl, hended⟩
  told := by
    intro addr i hmem
    rcases List.mem_append.mp hmem with hmem | hmem
    · exact List.mem_append_left _ (h.told addr i hmem)
    · cases List.mem_singleton.mp hmem

/-- A handler tells what it has taken out. -/
theorem Sound.logTold (h : Sound m) {k : Nat} {addr : SocketAddr}
    (hmem : .removed addr k k ∈ m.log) : Sound { m with log := m.log ++ [.told addr k] } where
  distinct := h.distinct
  bound := h.bound
  entries := h.entries
  notifying := fun j d hj hd => List.mem_append_left _ (h.notifying j d hj hd)
  removed := by
    intro addr' j i hi
    rcases List.mem_append.mp hi with hi | hi
    · exact h.removed addr' j i hi
    · cases List.mem_singleton.mp hi
  told := by
    intro addr' i hi
    rcases List.mem_append.mp hi with hi | hi
    · exact List.mem_append_left _ (h.told addr' i hi)
    · obtain ⟨rfl, rfl⟩ := Event.told.inj (List.mem_singleton.mp hi)
      exact List.mem_append_left _ hmem

/-- A new number is not taken. -/
theorem Sound.dial (h : Sound m) (addr : SocketAddr) : Sound { m with
    nextId := m.nextId + 1
    conns := m.conns ++ [⟨m.nextId, addr, .dialing, false, false⟩] } where
  distinct := by
    rw [List.map_append, List.map_singleton, List.nodup_append]
    refine ⟨h.distinct, List.nodup_singleton _, fun i hi j hj heq => ?_⟩
    obtain ⟨c, hc, rfl⟩ := List.mem_map.mp hi
    rw [List.mem_singleton.mp hj] at heq
    exact absurd (h.bound c hc) (heq ▸ Nat.lt_irrefl _)
  bound := forall_mem_concat (fun c hc => Nat.lt_succ_of_lt (h.bound c hc)) (Nat.lt_succ_self _)
  entries := by
    intro addr' k hk
    obtain ⟨c, hc, hp⟩ := h.entries addr' k hk
    exact ⟨c, List.getElem?_append_left (List.getElem?_eq_some_iff.mp hc).1 ▸ hc, hp⟩
  notifying := by
    intro k c hc hphase
    rcases of_getElem?_concat hc with hc | ⟨-, rfl⟩
    · exact h.notifying k c hc hphase
    · cases hphase
  removed := by
    intro addr' j k hmem
    obtain ⟨hjk, c, hc, hp, he⟩ := h.removed addr' j k hmem
    exact ⟨hjk, c, List.getElem?_append_left (List.getElem?_eq_some_iff.mp hc).1 ▸ hc, hp, he⟩
  told := h.told

/-- A shutdown keeps a manager sound. -/
theorem Sound.shutdown (h : Sound m) : Sound m.shutdown := by
  have hclosed : Sound { m with conns := m.shutdown.conns } := by
    refine h.mapConns (fun j => List.getElem?_mapIdx) (fun j c => ?_) (fun j c => ?_)
      (fun j c _ he => ?_) (fun j c hj hd => h.notifying j c hj ?_)
    · split <;> rfl
    · split <;> rfl
    · split <;> exact he
    · split at hd <;> exact hd
  refine ⟨hclosed.distinct, hclosed.bound, fun addr k hk => ?_, hclosed.notifying,
    hclosed.removed, hclosed.told⟩
  cases hk

/-- Every move keeps a manager sound. -/
theorem Sound.move (h : Sound m) (hmove : Move m a m') : Sound m' := by
  cases hmove with
  | dial => exact h.dial _
  | create hk phase =>
    refine h.setPhase hk (fun he => ?_) (fun hn => by cases hn)
    simp [Connection.Ended, phase] at he
  | @append k c localAddr hk phase =>
    have hmodified := h.modify_phase k (f := fun c => { c with appended := true })
      (fun _ => rfl) (fun _ => rfl) fun _ => rfl
    have hk' := conns_modify m k (fun c => { c with appended := true }) k
    rw [hk, Option.map_some, if_pos rfl] at hk'
    exact hmodified.appendConnection hk' localAddr
  | endLoop hk phase =>
    refine h.setPhase hk (fun he => ?_) (fun hn => by cases hn)
    simp [Connection.Ended, phase] at he
  | stale hk phase other => exact h.setPhase hk (fun _ => Or.inr rfl) fun hn => by cases hn
  | @removed k j c d hk phase entry hj same =>
    obtain rfl := h.eq_of_id hk hj same
    have hlog := (h.logRemoved hk (Or.inl phase)).remove c.peer
    exact hlog.setPhase hk (fun _ => Or.inl rfl) fun _ => by simp [Manager.remove]
  | tell hk phase =>
    have hlog := h.logTold (h.notifying _ _ hk phase)
    exact hlog.setPhase hk (fun _ => Or.inr rfl) fun hn => by cases hn
  | absent entry => exact h
  | disconnect entry => exact (h.remove _).close _
  | shutdown => exact h.shutdown

/-- Every manager that is reached is sound. -/
theorem sound_of_run {labels : List Label} (h : run step start labels = some m) : Sound m :=
  run_invariant (fun _ _ _ hs hstep => hs.move (step_move hstep)) sound_start h

/-- What a handler does: it leaves the map and the sessions alone unless the entry of its address
is its own connection. -/
theorem Sound.handle (h : Sound m) {k : Nat} {c : Connection} (hk : m.conns[k]? = some c)
    (hstep : step m (.handle k) = some m') :
    c.Ended ∧ (m.connections c.peer = some k ∧ m'.connections = (m.remove c.peer).connections ∧
        m'.log = m.log ++ [.removed c.peer k k] ∨
      m.connections c.peer ≠ some k ∧ m'.connections = m.connections ∧ m'.log = m.log) := by
  cases step_move hstep with
  | stale hk' phase other =>
    obtain rfl := Option.some.inj (hk.symm.trans hk')
    refine ⟨Or.inl phase, Or.inr ⟨fun hentry => other ?_, rfl, rfl⟩⟩
    simp only [entryId, hentry, Option.bind_some, hk, Option.map_some]
  | removed hk' phase entry hj same =>
    obtain rfl := Option.some.inj (hk.symm.trans hk')
    obtain rfl := h.eq_of_id hk hj same
    exact ⟨Or.inl phase, Or.inl ⟨entry, rfl, rfl⟩⟩

/-! ## What the sessions are told -/

/-- The map has a connection for the address whose task runs. -/
def Live (m : Manager) (addr : SocketAddr) : Prop :=
  ∃ j c, m.connections addr = some j ∧ m.conns[j]? = some c ∧ c.phase = .running

/-- A handler that tells the sessions of an address next tells of no live connection. -/
def TellsRight (m : Manager) : Prop :=
  ∀ k c m', m.conns[k]? = some c → step m (.tell k) = some m' → ¬ m.Live c.peer

/-- Appending a connection for an address puts it into the map: nothing is there, or the new
connection is kept. -/
def Puts (m : Manager) (addr : SocketAddr) (localAddr : Option SocketAddr) : Prop :=
  ∃ l ∈ localAddr, m.connections addr = none ∨ ¬ l < addr

/-- No running connection is put into the map for an address that a handler has taken out and has
not told of yet. -/
def AppendsAfterTold (m : Manager) : Label → Prop
  | .append k localAddr => ∀ c ∈ m.conns[k]?, c.phase = .running → m.Puts c.peer localAddr →
      ∀ d ∈ m.conns, d.phase = .notifying → d.peer ≠ c.peer
  | _ => True

instance (m : Manager) (addr : SocketAddr) (localAddr : Option SocketAddr) :
    Decidable (m.Puts addr localAddr) :=
  inferInstanceAs (Decidable (∃ l ∈ localAddr, m.connections addr = none ∨ ¬ l < addr))

instance (m : Manager) : (a : Label) → Decidable (m.AppendsAfterTold a)
  | .append k localAddr => inferInstanceAs (Decidable (∀ c ∈ m.conns[k]?, c.phase = .running →
      m.Puts c.peer localAddr → ∀ d ∈ m.conns, d.phase = .notifying → d.peer ≠ c.peer))
  | .dial _ | .create _ | .endLoop _ | .handle _ | .tell _ | .disconnect _ | .shutdown =>
      .isTrue trivial

/-- The peer of a connection and how far it has come. -/
def standing (m : Manager) (k : Nat) : Option (SocketAddr × Phase) :=
  (m.conns[k]?).map fun c => (c.peer, c.phase)

/-- A connection stands with its peer and its phase. -/
theorem standing_eq_some {k : Nat} {addr : SocketAddr} {phase : Phase} :
    m.standing k = some (addr, phase) ↔
      ∃ c, m.conns[k]? = some c ∧ c.peer = addr ∧ c.phase = phase := by
  simp only [standing, Option.map_eq_some_iff, Prod.mk.injEq]

/-- Only a handler that has taken an entry out tells. -/
theorem tellsRight_iff : m.TellsRight ↔
    ∀ k addr, m.standing k = some (addr, .notifying) → ¬ m.Live addr := by
  constructor
  · intro h k addr hk
    obtain ⟨c, hc, rfl, hphase⟩ := standing_eq_some.mp hk
    have hstep : ∃ m', step m (.tell k) = some m' := by simp [step, hc, hphase]
    obtain ⟨m', hm'⟩ := hstep
    exact h k c m' hc hm'
  · intro h k c m' hc hstep
    cases step_move hstep with
    | tell hk phase =>
      obtain rfl := Option.some.inj (hk.symm.trans hc)
      exact h k _ (standing_eq_some.mpr ⟨_, hc, rfl, phase⟩)

/-- Closing or appending a connection moves none. -/
theorem standing_modify (m : Manager) (k : Nat) {f : Connection → Connection}
    (hpeer : ∀ c, (f c).peer = c.peer) (hphase : ∀ c, (f c).phase = c.phase) (j : Nat) :
    (m.modify k f).standing j = m.standing j := by
  rw [standing, conns_modify, Option.map_map, standing]
  congr 1
  funext c
  simp only [Function.comp_apply]
  split
  · rw [hpeer, hphase]
  · rfl

@[simp] theorem standing_close (m : Manager) (k j : Nat) :
    (m.close k).standing j = m.standing j :=
  standing_modify m k (f := fun c => { c with closed := true }) (fun _ => rfl) (fun _ => rfl) j

/-- Moving a connection on moves no other. -/
theorem standing_setPhase {k j : Nat} {phase phase' : Phase} {addr : SocketAddr}
    (h : (m.setPhase k phase).standing j = some (addr, phase')) :
    m.standing j = some (addr, phase') ∨ j = k ∧ phase' = phase := by
  obtain ⟨c, hc, hpeer, hphase⟩ := standing_eq_some.mp h
  rw [setPhase, conns_modify] at hc
  obtain ⟨d, hd, rfl⟩ := Option.map_eq_some_iff.mp hc
  split at hpeer
  · rename_i hk
    rw [if_pos hk] at hphase
    exact Or.inr ⟨hk.symm, hphase.symm⟩
  · rename_i hk
    rw [if_neg hk] at hphase
    exact Or.inl (standing_eq_some.mpr ⟨d, hd, hpeer, hphase⟩)

/-- Appending a connection moves none. -/
theorem standing_appendConnection (m : Manager) (k : Nat) (addr : SocketAddr)
    (localAddr : Option SocketAddr) (j : Nat) :
    (m.appendConnection k addr localAddr).standing j = m.standing j := by
  unfold appendConnection
  split
  · rfl
  · split
    · rfl
    · split
      · exact standing_close m k j
      · exact standing_close _ _ j

/-- What appending a connection does to the map. -/
theorem appendConnection_connections (m : Manager) (k : Nat) (addr : SocketAddr)
    (localAddr : Option SocketAddr) :
    (m.appendConnection k addr localAddr).connections =
      if m.Puts addr localAddr then Function.update m.connections addr (some k)
      else m.connections := by
  cases localAddr with
  | none =>
    rw [if_neg]
    · rfl
    · rintro ⟨l, hl, _⟩
      cases hl
  | some l =>
    simp only [appendConnection, Puts, Option.mem_def, Option.some.injEq, exists_eq_left']
    cases hentry : m.connections addr with
    | none => rw [if_pos (Or.inl rfl)]; rfl
    | some old =>
      by_cases hlt : l < addr
      · dsimp only
        rw [if_pos hlt, if_neg (by simp [hlt])]
        rfl
      · dsimp only
        rw [if_neg hlt, if_pos (Or.inr hlt)]
        rfl

/-- Where connections stand is all that matters for who is live. -/
theorem live_iff {addr : SocketAddr} :
    m.Live addr ↔ ∃ j p, m.connections addr = some j ∧ m.standing j = some (p, .running) := by
  constructor
  · rintro ⟨j, c, hentry, hj, hphase⟩
    exact ⟨j, c.peer, hentry, standing_eq_some.mpr ⟨c, hj, rfl, hphase⟩⟩
  · rintro ⟨j, p, hentry, hj⟩
    obtain ⟨c, hc, -, hphase⟩ := standing_eq_some.mp hj
    exact ⟨j, c, hentry, hc, hphase⟩

/-- A step that makes no address live and no handler ready to tell, except of an address that it
takes out, keeps the sessions told right. -/
theorem TellsRight.mono (h : m.TellsRight)
    (htell : ∀ k addr, m'.standing k = some (addr, .notifying) →
      m.standing k = some (addr, .notifying) ∨ m'.connections addr = none)
    (hlive : ∀ addr, m'.Live addr → m.Live addr) : m'.TellsRight := by
  rw [tellsRight_iff] at h ⊢
  intro k addr hk hl
  rcases htell k addr hk with hk | hnone
  · exact h k addr hk (hlive addr hl)
  · obtain ⟨j, c, hentry, _⟩ := hl
    exact absurd (hentry.symm.trans hnone) (by simp)

/-- The map holds connections whose tasks have started. -/
def Started (m : Manager) : Prop :=
  ∀ addr j p, m.connections addr = some j → m.standing j ≠ some (p, .dialing)

/-- A phase behind the dialing keeps the entries started. -/
theorem Started.setPhase (h : m.Started) (k : Nat) {phase : Phase} (hphase : phase ≠ .dialing) :
    (m.setPhase k phase).Started := by
  intro addr j p hentry hj
  rcases standing_setPhase hj with hold | ⟨-, hdial⟩
  · exact h addr j p hentry hold
  · exact hphase hdial.symm

/-- What the map holds after a removal it held before. -/
theorem connections_of_remove {addr addr' : SocketAddr} {j : Nat}
    (hentry : (m.remove addr).connections addr' = some j) : m.connections addr' = some j := by
  by_cases haddr : addr' = addr
  · rw [haddr, remove_connections_self] at hentry
    cases hentry
  · rwa [remove_connections_of_ne haddr] at hentry

/-- A removal keeps the entries started. -/
theorem Started.remove (h : m.Started) (addr : SocketAddr) : (m.remove addr).Started :=
  fun addr' j p hentry => h addr' j p (connections_of_remove hentry)

/-- Only started connections are put into the map. -/
theorem Started.move (h : m.Started) (hsound : m.Sound) (hmove : Move m a m') : m'.Started := by
  cases hmove with
  | dial =>
    intro addr' j p hentry hj
    obtain ⟨c, hc, -⟩ := hsound.entries addr' j hentry
    obtain ⟨d, hd, hpeer, hphase⟩ := standing_eq_some.mp hj
    rw [List.getElem?_append_left (List.getElem?_eq_some_iff.mp hc).1] at hd
    exact h addr' j p hentry (standing_eq_some.mpr ⟨d, hd, hpeer, hphase⟩)
  | create hk phase => exact h.setPhase _ (by simp)
  | @append k c localAddr hk phase =>
    have hmodify := standing_modify m k (f := fun c => { c with appended := true })
      (fun _ => rfl) fun _ => rfl
    intro addr j p hentry hj
    rw [standing_appendConnection, hmodify] at hj
    rw [appendConnection_connections] at hentry
    split at hentry
    · rw [Function.update_apply] at hentry
      split at hentry
      · obtain rfl := Option.some.inj hentry
        obtain ⟨d, hd, -, hphase⟩ := standing_eq_some.mp hj
        obtain rfl := Option.some.inj (hk.symm.trans hd)
        exact phase hphase
      · exact h addr j p hentry hj
    · exact h addr j p hentry hj
  | endLoop hk phase => exact h.setPhase _ (by simp)
  | stale hk phase other => exact h.setPhase _ (by simp)
  | removed hk phase entry hj same => exact (h.remove _).setPhase _ (by simp)
  | tell hk phase => exact h.setPhase _ (by simp)
  | absent entry => exact h
  | disconnect entry =>
    intro addr' j p hentry hj
    rw [standing_close] at hj
    exact h.remove _ addr' j p hentry hj
  | shutdown =>
    intro addr' j p hentry
    cases hentry

/-- Appending a connection tells the sessions right exactly when it puts no running connection in
for an address that is still to be told of. -/
theorem TellsRight.append (h : m.TellsRight) {k : Nat} {c : Connection} (hk : m.conns[k]? = some c)
    (localAddr : Option SocketAddr) :
    ((m.modify k fun c => { c with appended := true }).appendConnection k c.peer
      localAddr).TellsRight ↔ m.AppendsAfterTold (.append k localAddr) := by
  have hmodify := standing_modify m k (f := fun c => { c with appended := true })
    (fun _ => rfl) fun _ => rfl
  have hstand : ∀ j, ((m.modify k fun c => { c with appended := true }).appendConnection k c.peer
      localAddr).standing j = m.standing j := fun j => by
    rw [standing_appendConnection, hmodify]
  have hmap : ((m.modify k fun c => { c with appended := true }).appendConnection k c.peer
      localAddr).connections = if m.Puts c.peer localAddr then
        Function.update m.connections c.peer (some k) else m.connections :=
    appendConnection_connections (m.modify k fun c => { c with appended := true }) k c.peer
      localAddr
  constructor
  · intro hp d hd hrun hputs e he hnotify hpeer
    obtain rfl := Option.some.inj (hk.symm.trans hd)
    obtain ⟨i, hi⟩ := List.getElem?_of_mem he
    rw [if_pos hputs] at hmap
    refine tellsRight_iff.mp hp i c.peer ?_ (live_iff.mpr ⟨k, c.peer, ?_, ?_⟩)
    · rw [hstand]
      exact standing_eq_some.mpr ⟨e, hi, hpeer, hnotify⟩
    · rw [hmap, Function.update_self]
    · rw [hstand]
      exact standing_eq_some.mpr ⟨c, hk, rfl, hrun⟩
  · intro hc
    rw [tellsRight_iff] at h ⊢
    intro i addr hi hl
    obtain ⟨j, p, hentry, hj⟩ := live_iff.mp hl
    rw [hstand] at hi hj
    rw [hmap] at hentry
    split at hentry
    · rename_i hputs
      rw [Function.update_apply] at hentry
      split at hentry
      · rename_i haddr
        obtain rfl := Option.some.inj hentry
        obtain ⟨d, hd, -, hrun⟩ := standing_eq_some.mp hj
        obtain rfl := Option.some.inj (hk.symm.trans hd)
        obtain ⟨e, he, hpeer, hnotify⟩ := standing_eq_some.mp hi
        exact hc c hk hrun hputs e (List.mem_of_getElem? he) hnotify (hpeer.trans haddr)
      · exact h i addr hi (live_iff.mpr ⟨j, p, hentry, hj⟩)
    · exact h i addr hi (live_iff.mpr ⟨j, p, hentry, hj⟩)

/-- Only the running phase makes an address live. -/
theorem Live.of_setPhase {k : Nat} {phase : Phase} {addr : SocketAddr}
    (hl : (m.setPhase k phase).Live addr) (hphase : phase ≠ .running) : m.Live addr := by
  obtain ⟨j, p, hentry, hj⟩ := live_iff.mp hl
  rcases standing_setPhase hj with hold | ⟨-, hrun⟩
  · exact live_iff.mpr ⟨j, p, hentry, hold⟩
  · exact absurd hrun.symm hphase

/-- A removal makes no address live. -/
theorem Live.of_remove {addr addr' : SocketAddr} (hl : (m.remove addr).Live addr') :
    m.Live addr' := by
  obtain ⟨j, p, hentry, hj⟩ := live_iff.mp hl
  exact live_iff.mpr ⟨j, p, connections_of_remove hentry, hj⟩

/-- Only the notifying phase makes a handler ready to tell. -/
theorem notifying_of_setPhase {k j : Nat} {phase : Phase} {addr : SocketAddr}
    (hj : (m.setPhase k phase).standing j = some (addr, .notifying)) (hphase : phase ≠ .notifying) :
    m.standing j = some (addr, .notifying) :=
  (standing_setPhase hj).resolve_right fun hnew => hphase hnew.2.symm

/-- Any other phase keeps the sessions told right. -/
theorem TellsRight.setPhase (h : m.TellsRight) (k : Nat) {phase : Phase}
    (hnotify : phase ≠ .notifying) (hrun : phase ≠ .running) : (m.setPhase k phase).TellsRight :=
  h.mono (fun _ _ hj => Or.inl (notifying_of_setPhase hj hnotify)) fun _ hl => hl.of_setPhase hrun

/-- Of all steps, only appending a connection can make it wrong what the sessions are told. -/
theorem TellsRight.move (h : m.TellsRight) (hstarted : m.Started)
    (hmove : Move m a m') : m'.TellsRight ↔ m.AppendsAfterTold a := by
  have hsame : m'.TellsRight → AppendsAfterTold m a → (m'.TellsRight ↔ m.AppendsAfterTold a) :=
    fun hp hc => iff_of_true hp hc
  cases hmove with
  | dial =>
    refine hsame (h.mono (fun k addr hk => Or.inl ?_) fun addr hl => ?_) trivial
    · obtain ⟨d, hd, hpeer, hnotify⟩ := standing_eq_some.mp hk
      rcases of_getElem?_concat hd with hold | ⟨-, rfl⟩
      · exact standing_eq_some.mpr ⟨d, hold, hpeer, hnotify⟩
      · cases hnotify
    · obtain ⟨j, d, hentry, hj, hrun⟩ := hl
      rcases of_getElem?_concat hj with hold | ⟨-, rfl⟩
      · exact ⟨j, d, hentry, hold, hrun⟩
      · cases hrun
  | @create k c hk phase =>
    refine hsame (h.mono (fun j addr hj => Or.inl (notifying_of_setPhase hj (by simp)))
      fun addr hl => ?_) trivial
    -- a connection that starts to run is not in the map yet
    obtain ⟨j, p, hentry, hj⟩ := live_iff.mp hl
    rcases standing_setPhase hj with hold | ⟨rfl, -⟩
    · exact live_iff.mpr ⟨j, p, hentry, hold⟩
    · exact absurd (standing_eq_some.mpr ⟨c, hk, rfl, phase⟩) (hstarted addr j c.peer hentry)
  | append hk phase => exact h.append hk _
  | endLoop hk phase => exact hsame (h.setPhase _ (by simp) (by simp)) trivial
  | stale hk phase other => exact hsame (h.setPhase _ (by simp) (by simp)) trivial
  | @removed k j c d hk phase entry hj same =>
    refine hsame (h.mono (fun i addr hi => ?_) fun addr hl => ?_) trivial
    · rcases standing_setPhase (m := m.remove c.peer) hi with hold | ⟨rfl, -⟩
      · exact Or.inl hold
      · obtain ⟨e, he, rfl, -⟩ := standing_eq_some.mp hi
        have he' : (m.setPhase i .notifying).conns[i]? = some e := he
        rw [Manager.setPhase, conns_modify, hk, Option.map_some, if_pos rfl] at he'
        obtain rfl := Option.some.inj he'
        exact Or.inr (remove_connections_self m c.peer)
    · have hl' : ((m.remove c.peer).setPhase k .notifying).Live addr := hl
      exact (hl'.of_setPhase (by simp)).of_remove
  | @tell k c hk phase =>
    have hfinished : (m.setPhase k .finished).TellsRight := h.setPhase k (by simp) (by simp)
    exact hsame (hfinished.mono (fun _ _ hj => Or.inl hj) fun _ hl => hl) trivial
  | absent entry => exact hsame h trivial
  | @disconnect addr k entry =>
    refine hsame (h.mono (fun i addr' hi => Or.inl ?_) fun addr' hl => ?_) trivial
    · rwa [standing_close] at hi
    · obtain ⟨i, p, hentry, hi⟩ := live_iff.mp hl
      rw [standing_close] at hi
      exact Live.of_remove (live_iff.mpr ⟨i, p, hentry, hi⟩)
  | shutdown =>
    refine hsame (h.mono (fun i addr hi => Or.inr rfl) fun addr hl => ?_) trivial
    obtain ⟨i, p, hentry, hi⟩ := live_iff.mp hl
    cases hentry

/-- What holds of a manager that has told the sessions right. -/
structure ToldRight (m : Manager) : Prop where
  sound : m.Sound
  started : m.Started
  tells : m.TellsRight

/-- A node without connections tells nobody. -/
theorem toldRight_start : start.ToldRight where
  sound := sound_start
  started := by
    intro addr j p hentry
    cases hentry
  tells := by
    intro k c m' hk
    simp [start] at hk

/-- In every run, the sessions are told right in all states exactly when connections are put into
the map after the sessions were told. -/
theorem tellsRight_of_run_iff {labels : List Label} (hrun : run step start labels = some m) :
    (∀ pre post s, labels = pre ++ post → run step start pre = some s → s.TellsRight) ↔
      Along step AppendsAfterTold start labels := by
  refine forall_reached_iff_along (fun s hs => hs.tells) (fun s a s' hs hstep => ?_)
    toldRight_start hrun
  have hmove := step_move hstep
  exact ⟨hs.tells.move hs.started hmove,
    fun hp => ⟨hs.sound.move hmove, hs.started.move hs.sound hmove, hp⟩⟩

/-- In every run: a handler takes an entry out of the map and tells of it only if the entry is its
own connection, whose task has ended; a handler whose connection is not the entry does nothing;
and no step of a handler takes out a connection whose task runs. The sessions are never told of an
address that has a live connection, exactly when no running connection is put into the map for an
address between its removal and the telling. -/
theorem handlers_spare_others {labels : List Label} (hrun : run step start labels = some m) :
    (∀ addr j k, .removed addr j k ∈ m.log →
      j = k ∧ ∃ c, m.conns[k]? = some c ∧ c.peer = addr ∧ c.Ended) ∧
    (∀ addr k, .told addr k ∈ m.log → .removed addr k k ∈ m.log) ∧
    (∀ k c m', m.conns[k]? = some c → m.connections c.peer ≠ some k →
      step m (.handle k) = some m' → m'.connections = m.connections ∧ m'.log = m.log) ∧
    (∀ k m', step m (.handle k) = some m' ∨ step m (.tell k) = some m' →
      ∀ addr j c, m.connections addr = some j → m.conns[j]? = some c → c.phase = .running →
        m'.connections addr = some j) ∧
    ((∀ pre post s, labels = pre ++ post → run step start pre = some s → s.TellsRight) ↔
      Along step AppendsAfterTold start labels) := by
  have hsound := sound_of_run hrun
  refine ⟨hsound.removed, hsound.told, fun k c m' hk hother hstep => ?_, ?_,
    tellsRight_of_run_iff hrun⟩
  · rcases hsound.handle hk hstep with ⟨-, ⟨hown, -⟩ | ⟨-, hsame⟩⟩
    · exact absurd hown hother
    · exact hsame
  · intro k m' hstep addr j d hentry hj hrunning
    rcases hstep with hstep | hstep
    · cases hc : m.conns[k]? with
      | none => simp [step, hc] at hstep
      | some c =>
        obtain ⟨hended, ⟨hown, hmap, -⟩ | ⟨-, hmap, -⟩⟩ := hsound.handle hc hstep
        · -- The entry of this address is another connection, so it stands at another address.
          have hne : addr ≠ c.peer := by
            rintro rfl
            obtain rfl := Option.some.inj (hown.symm.trans hentry)
            obtain rfl := Option.some.inj (hc.symm.trans hj)
            simp [Connection.Ended, hrunning] at hended
          rw [hmap, remove_connections_of_ne hne]
          exact hentry
        · rw [hmap]
          exact hentry
    · cases step_move hstep with
      | tell hk phase => exact hentry

end Manager

/-- The address of this node. -/
def sampleLocal : SocketAddr := ⟨.ofBytes 10 0 0 2, 6881⟩

/-- A peer with a smaller address. -/
def samplePeer : SocketAddr := ⟨.ofBytes 10 0 0 1, 6881⟩

/-- A second connection to a peer takes the place of the first, whose task then ends. -/
def sampleReplacement : List Label := [
  .dial samplePeer, .create 0, .append 0 (some sampleLocal),
  .dial samplePeer, .create 1, .append 1 (some sampleLocal), .endLoop 0]

/-- The handler of the replaced connection leaves its replacement alone, and in the whole run the
sessions are told of no live connection. -/
theorem handlers_spare_sampleReplacement : ∃ m,
    run Manager.step .start sampleReplacement = some m ∧ m.connections samplePeer = some 1 ∧
    (∀ m', Manager.step m (.handle 0) = some m' →
      m'.connections = m.connections ∧ m'.log = m.log) ∧
    m.TellsRight := by
  have hrun : ((run Manager.step .start sampleReplacement).any fun m =>
      decide (m.connections samplePeer = some 1 ∧
        m.conns[0]? = some ⟨0, samplePeer, .leaving, true, true⟩)) = true := by
    decide +kernel
  have hafter : Along Manager.step Manager.AppendsAfterTold .start sampleReplacement := by
    decide +kernel
  obtain ⟨m, hm, hentry, hconn⟩ := exists_of_any hrun
  refine ⟨m, hm, hentry, fun m' hstep => ?_, ?_⟩
  · refine (Manager.handlers_spare_others hm).2.2.1 0 _ m' hconn ?_ hstep
    rw [hentry]
    decide
  · exact (Manager.handlers_spare_others hm).2.2.2.2.mpr hafter _ [] m (List.append_nil _).symm hm

/-- A connection ends and its handler takes it out of the map; before the handler tells, a new
connection to the peer is made and put in. -/
def sampleReconnect : List Label := [
  .dial samplePeer, .create 0, .append 0 (some sampleLocal), .endLoop 0, .handle 0,
  .dial samplePeer, .create 1, .append 1 (some sampleLocal)]

/-- The sessions are told that the peer is gone while its new connection is live. -/
theorem live_replacement_told : ∃ m m',
    run Manager.step .start sampleReconnect = some m ∧ m.Live samplePeer ∧
    Manager.step m (.tell 0) = some m' ∧ .told samplePeer 0 ∈ m'.log ∧ m'.Live samplePeer ∧
    ¬ m.TellsRight := by
  have hrun : ((run Manager.step .start sampleReconnect).any fun m =>
      decide (m.connections samplePeer = some 1 ∧
        m.conns[0]? = some ⟨0, samplePeer, .notifying, true, false⟩ ∧
        m.conns[1]? = some ⟨1, samplePeer, .running, true, false⟩)) = true := by
    decide +kernel
  obtain ⟨m, hm, hentry, hold, hnew⟩ := exists_of_any hrun
  have hlive : m.Live samplePeer := ⟨1, _, hentry, hnew, rfl⟩
  have htell : Manager.step m (.tell 0) =
      some { m.setPhase 0 .finished with log := m.log ++ [.told samplePeer 0] } := by
    simp [Manager.step, hold]
  have hkept : (m.setPhase 0 .finished).conns[1]? =
      some ⟨1, samplePeer, .running, true, false⟩ := by
    rw [Manager.setPhase, Manager.conns_modify, hnew, Option.map_some, if_neg (by simp)]
  exact ⟨m, _, hm, hlive, htell, List.mem_append_right _ (List.mem_singleton_self _),
    ⟨1, _, hentry, hkept, rfl⟩, fun hright => hright 0 _ _ hold htell hlive⟩

end Bqti.Network
