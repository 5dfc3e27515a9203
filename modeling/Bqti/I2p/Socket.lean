import Bqti.Core.Lines
import Bqti.I2p.DestMap

/-!
# Sockets over I2P

A socket takes datagrams from the bridge in a loop of its own, which passes them on through a
bounded channel, and gives them to whoever polls it. Each comes with an address that stands for its
source. The loop ends at an error; a poll that finds the channel empty after that fails, and what
it has taken out before is lost.
-/

namespace Bqti.I2p

open Bqti.Core (Bytes decodeText encodeText run)
open Bqti.Core.Net (SocketAddr Ipv4Addr Ipv6Addr)

/-- The size of the buffer that a datagram is received into. -/
def udpPacketSize : ℕ := 65536

/-- How many datagrams wait for the socket at most. -/
def udpChannelSize : ℕ := 512

/-- The address of a host, of either version. -/
inductive IpAddr
  | v4 (ip : Ipv4Addr)
  | v6 (ip : Ipv6Addr)

/-- An address without its port. -/
def ip : SocketAddr → IpAddr
  | .v4 addr => .v4 addr.ip
  | .v6 addr => .v6 addr.ip

/-- What a datagram carries and the address for its source. -/
structure Datagram where
  contents : Bytes
  addr : SocketAddr

/-- What is said about a datagram that is in a buffer. -/
structure RecvMeta where
  addr : SocketAddr
  len : ℕ
  stride : ℕ
  dstIp : Option IpAddr

/-- A datagram in a buffer. -/
abbrev Received := Bytes × RecvMeta

/-- What a poll comes to. -/
inductive Poll
  | pending
  | ready (received : List Received)
  | brokenPipe

/-- A socket: its session, the channel with the datagram that waits for room in it, and whether the
loop has ended. -/
structure Socket where
  sessionId : String
  destination : String
  localAddr : SocketAddr
  destMap : DestMap
  inbound : List Datagram
  sending : Option Datagram
  closed : Bool

/-- The source and the contents of what comes from the bridge. -/
def readDatagram (data : Bytes) : Option (String × Bytes) :=
  match data.findIdx? (· == 10) with
  | none => none
  | some nl =>
      (decodeText (data.take nl)).map fun source => (String.ofList source, data.drop (nl + 1))

/-- A datagram in a buffer of some size. -/
def copy (localAddr : SocketAddr) (size : ℕ) (packet : Datagram) : Received :=
  let len := min packet.contents.length size
  (packet.contents.take len, ⟨packet.addr, len, len, some (ip localAddr)⟩)

/-- What buffers of some sizes get out of a channel, what stays in it, and whether it is found empty
and closed. -/
def fillBufs (localAddr : SocketAddr) (closed : Bool) :
    List ℕ → List Datagram → List Received × List Datagram × Bool
  | [], inbound => ([], inbound, false)
  | _ :: _, [] => ([], [], closed)
  | size :: bufs, packet :: inbound =>
      let out := fillBufs localAddr closed bufs inbound
      (copy localAddr size packet :: out.1, out.2)

namespace Socket

/-- A socket whose own destination has an address already. -/
def new (sessionId destination : String) (destMap : DestMap)
    (order : List (String × SocketAddr)) : Socket :=
  let out := destMap.getOrInsert order destination
  ⟨sessionId, destination, out.1, out.2, [], none, false⟩

/-- The address of a destination, a new one if it has none. -/
def registerDest (self : Socket) (order : List (String × SocketAddr)) (dest : String) :
    SocketAddr × Socket :=
  let out := self.destMap.getOrInsert order dest
  (out.1, { self with destMap := out.2 })

/-- The loop waits for a datagram. -/
def Receives (self : Socket) : Prop := self.closed = false ∧ self.sending = none

instance (self : Socket) : Decidable self.Receives := inferInstanceAs (Decidable (_ ∧ _))

/-- The loop takes a datagram up to the size of its buffer; one without a source is skipped. -/
def recv (self : Socket) (order : List (String × SocketAddr)) (data : Bytes) : Socket :=
  match readDatagram (data.take udpPacketSize) with
  | none => self
  | some (source, contents) =>
      let out := self.destMap.getOrInsert order source
      { self with destMap := out.2, sending := some ⟨contents, out.1⟩ }

/-- The packet for the bridge. -/
def packet (sessionId destination : String) (contents : Bytes) : Bytes :=
  encodeText (['3', '.', '0', ' '] ++ sessionId.toList ++ ' ' :: destination.toList ++ ['\n']) ++
    contents

/-- What is sent to an address without a destination is dropped. Otherwise a packet is given to the
bridge, where the system may refuse it. -/
def trySend {E : Type} (self : Socket) (addr : SocketAddr) (contents : Bytes)
    (trySendTo : Except E Unit) : Except E Unit × Option Bytes :=
  match self.destMap.resolve addr with
  | none => (.ok (), none)
  | some destination =>
      match trySendTo with
      | .ok () => (.ok (), some (packet self.sessionId destination contents))
      | .error e => (.error e, none)

/-- Fill the buffers with waiting datagrams. Without any, the socket is pending or broken. -/
def pollRecv (self : Socket) (bufs : List ℕ) : Poll × Socket :=
  let out := fillBufs self.localAddr self.closed bufs self.inbound
  (if out.2.2 then .brokenPipe else if out.1.isEmpty then .pending else .ready out.1,
    { self with inbound := out.2.1 })

end Socket

/-! ## Runs -/

/-- A socket, the requests for addresses, the datagrams with their sources and what polls have
returned so far. -/
structure Endpoint where
  socket : Socket
  calls : List DestMap.Call
  arrived : List (String × Datagram)
  returned : List Received

/-- What happens to a socket, with the order of the hash map where it is asked for an address. -/
inductive Event
  | registerDest (dest : String) (order : List (String × SocketAddr))
  | recv (data : Bytes) (order : List (String × SocketAddr))
  | recvError
  | forward
  | pollRecv (bufs : List ℕ)

/-- The source and the contents of a datagram that the loop gets. -/
def Event.datagram? : Event → Option (String × Bytes)
  | .recv data _ => readDatagram (data.take udpPacketSize)
  | .registerDest _ _ | .recvError | .forward | .pollRecv _ => none

/-- The name that the event asks an address for. -/
def Event.name? : Event → Option String
  | .registerDest dest _ => some dest
  | .recv data _ => (readDatagram (data.take udpPacketSize)).map Prod.fst
  | .recvError | .forward | .pollRecv _ => none

/-- What a poll has returned. -/
def Poll.received : Poll → List Received
  | .ready received => received
  | .pending | .brokenPipe => []

/-- The number of buffers of a poll. -/
def Event.buffers : Event → ℕ
  | .pollRecv bufs => bufs.length
  | .registerDest _ _ | .recv _ _ | .recvError | .forward => 0

namespace Endpoint

/-- An endpoint before anything was sent or received. -/
def start (sessionId destination : String) : Endpoint :=
  ⟨Socket.new sessionId destination .new [], [⟨destination, []⟩], [], []⟩

/-- The datagram of a source has an address and waits for room in the channel. -/
def take (self : Endpoint) (order : List (String × SocketAddr)) (data : Bytes) (source : String)
    (contents : Bytes) : Endpoint where
  socket := self.socket.recv order data
  calls := self.calls ++ [⟨source, order⟩]
  arrived := self.arrived ++
    [(source, ⟨contents, (self.socket.destMap.getOrInsert order source).1⟩)]
  returned := self.returned

/-- One step. -/
def step (self : Endpoint) : Event → Option Endpoint
  | .registerDest dest order =>
      if order.Perm self.socket.destMap.destToAddr then
        some { self with
          socket := (self.socket.registerDest order dest).2
          calls := self.calls ++ [⟨dest, order⟩] }
      else none
  | .recv data order =>
      if self.socket.Receives then
        match readDatagram (data.take udpPacketSize) with
        | none => some { self with socket := self.socket.recv order data }
        | some (source, contents) =>
            if order.Perm self.socket.destMap.destToAddr then
              some (self.take order data source contents)
            else none
      else none
  | .recvError =>
      if self.socket.Receives then some { self with socket := { self.socket with closed := true } }
      else none
  | .forward =>
      match self.socket.sending with
      | none => none
      | some packet =>
          if self.socket.inbound.length < udpChannelSize then
            some { self with
              socket := { self.socket with
                inbound := self.socket.inbound ++ [packet]
                sending := none } }
          else none
  | .pollRecv bufs =>
      let out := self.socket.pollRecv bufs
      some { self with socket := out.2, returned := self.returned ++ out.1.received }

end Endpoint

/-! ## The order of the datagrams -/

/-- What is in a buffer was copied from a datagram. -/
def Copied (localAddr : SocketAddr) (packet : Datagram) (received : Received) : Prop :=
  ∃ size, received = copy localAddr size packet

/-- Buffers take the first datagrams of the channel. If they find it closed they have taken all, and
there were more buffers than datagrams. -/
theorem exists_taken (localAddr : SocketAddr) (closed : Bool) (bufs : List ℕ)
    (inbound : List Datagram) :
    ∃ taken, inbound = taken ++ (fillBufs localAddr closed bufs inbound).2.1 ∧
      List.Forall₂ (Copied localAddr) taken (fillBufs localAddr closed bufs inbound).1 ∧
      ((fillBufs localAddr closed bufs inbound).2.2 = true →
        closed = true ∧ taken = inbound ∧ taken.length < bufs.length) := by
  induction bufs generalizing inbound with
  | nil => exact ⟨[], rfl, .nil, by simp [fillBufs]⟩
  | cons size bufs ih =>
    cases inbound with
    | nil => exact ⟨[], rfl, .nil, fun h => ⟨h, rfl, by simp⟩⟩
    | cons packet inbound =>
      obtain ⟨taken, hinbound, hcopied, hclosed⟩ := ih inbound
      refine ⟨packet :: taken, congrArg (packet :: ·) hinbound, .cons ⟨size, rfl⟩ hcopied, ?_⟩
      intro h
      obtain ⟨hc, htaken, hlength⟩ := hclosed h
      exact ⟨hc, congrArg (packet :: ·) htaken, Nat.succ_lt_succ hlength⟩

/-- A destination keeps its address, whatever else is asked for. -/
theorem DestMap.answers_kept {calls : List DestMap.Call} {last : DestMap}
    (h : run DestMap.step .new calls = some last) :
    ∀ p ∈ DestMap.answers .new calls, ∀ q ∈ DestMap.answers .new calls, p.1 = q.1 → p.2 = q.2 := by
  obtain ⟨entries, n, hlast, -, hanswers⟩ := run_represents represents_new h
  rw [List.append_nil] at hlast
  rw [hanswers]
  simp only [List.mem_reverse, List.forall_mem_map]
  intro e he f hf hkey
  exact congrArg groupAddr (hlast.grouped.functional e he f hf hkey)

/-- One more request. -/
theorem DestMap.run_concat {calls : List DestMap.Call} {map : DestMap}
    (h : run DestMap.step .new calls = some map) (dest : String)
    {order : List (String × SocketAddr)} (horder : order.Perm map.destToAddr) :
    run DestMap.step .new (calls ++ [⟨dest, order⟩]) = some (map.getOrInsert order dest).2 ∧
      DestMap.answers .new (calls ++ [⟨dest, order⟩]) =
        DestMap.answers .new calls ++ [(dest, (map.getOrInsert order dest).1)] :=
  ⟨Core.run_append_eq_some.mpr
      ⟨map, h, Core.run_cons_eq_some.mpr ⟨_, step_eq_some_iff.mpr ⟨horder, rfl⟩, rfl⟩⟩,
    answers_append _ h⟩

/-- An address that stands for something stood for it before, or was just given to it. -/
theorem DestMap.resolve_getOrInsert {map : DestMap} {order : List (String × SocketAddr)}
    {dest found : String} {addr : SocketAddr}
    (h : (map.getOrInsert order dest).2.resolve addr = some found) :
    map.resolve addr = some found ∨ (found, addr) = (dest, (map.getOrInsert order dest).1) := by
  have hupdate : ∀ {place : SocketAddr},
      Function.update map.addrToDest place (some dest) addr = some found →
        map.resolve addr = some found ∨ (found, addr) = (dest, place) := by
    intro place hfound
    by_cases heq : addr = place
    · rw [heq, Function.update_self] at hfound
      exact .inr (by rw [Option.some.inj hfound, heq])
    · rw [Function.update_of_ne heq] at hfound
      exact .inl hfound
  rw [getOrInsert] at h ⊢
  split at h
  · exact .inl h
  · split at h
    · rename_i place _
      rcases map.extend_eq place dest with heq | heq
      · exact hupdate (by rw [← heq]; exact h)
      · rw [resolve, heq] at h
        exact .inl h
    · exact hupdate h

/-- What an address stands for has asked for it. -/
theorem DestMap.mem_answers_of_resolve {calls : List DestMap.Call} {last : DestMap}
    (h : run DestMap.step .new calls = some last) {addr : SocketAddr} {dest : String}
    (hresolve : last.resolve addr = some dest) : (dest, addr) ∈ DestMap.answers .new calls := by
  induction calls using List.reverseRecOn generalizing last with
  | nil =>
    obtain rfl := Option.some.inj h
    contradiction
  | append_singleton calls call ih =>
    obtain ⟨map, hrun, hlast⟩ := Core.run_append_eq_some.mp h
    obtain ⟨next, hstep, hnext⟩ := Core.run_cons_eq_some.mp hlast
    obtain rfl := Option.some.inj hnext
    obtain ⟨horder, rfl⟩ := step_eq_some_iff.mp hstep
    rw [answers_append _ hrun, List.mem_append]
    rcases resolve_getOrInsert hresolve with hold | heq
    · exact .inl (ih hrun hold)
    · exact .inr (by rw [heq]; exact List.mem_singleton_self _)

namespace Endpoint

/-- The datagrams that have arrived are, in this order, those that polls have returned, those that
they have lost and those that are still there. -/
def InOrder (e : Endpoint) (m : ℕ) : Prop :=
  ∃ taken lost, e.arrived.map Prod.snd =
      taken ++ lost ++ (e.socket.inbound ++ e.socket.sending.toList) ∧
    List.Forall₂ (Copied e.socket.localAddr) taken e.returned ∧ lost.length ≤ m ∧
    (lost ≠ [] → e.socket.closed = true ∧ e.socket.inbound = [])

/-- What holds of a socket and its history, where no poll has more than `m + 1` buffers. -/
structure Inv (m : ℕ) (e : Endpoint) : Prop where
  map : run DestMap.step .new e.calls = some e.socket.destMap
  addrs : ∀ a ∈ e.arrived, (a.1, a.2.addr) ∈ DestMap.answers .new e.calls
  room : e.socket.inbound.length ≤ udpChannelSize
  closed : e.socket.closed = true → e.socket.sending = none
  inOrder : e.InOrder m

/-- An endpoint starts with its invariant. -/
theorem inv_start (m : ℕ) (sessionId destination : String) :
    Inv m (start sessionId destination) where
  map := rfl
  addrs _ h := absurd h List.not_mem_nil
  room := Nat.zero_le _
  closed h := absurd h Bool.false_ne_true
  inOrder := ⟨[], [], rfl, .nil, Nat.zero_le m, fun h => absurd rfl h⟩

namespace Inv

variable {m : ℕ} {e : Endpoint} (h : Inv m e)
include h

/-- A new destination keeps the invariant. -/
theorem registerDest (dest : String) {order : List (String × SocketAddr)}
    (horder : order.Perm e.socket.destMap.destToAddr) :
    Inv m { e with
      socket := (e.socket.registerDest order dest).2
      calls := e.calls ++ [⟨dest, order⟩] } where
  map := (DestMap.run_concat h.map dest horder).1
  addrs a ha := by
    rw [(DestMap.run_concat h.map dest horder).2]
    exact List.mem_append_left _ (h.addrs a ha)
  room := h.room
  closed := h.closed
  inOrder := h.inOrder

/-- A datagram that is taken keeps the invariant. -/
theorem take {data : Bytes} {source : String} {contents : Bytes}
    {order : List (String × SocketAddr)} (hreceives : e.socket.Receives)
    (hread : readDatagram (data.take udpPacketSize) = some (source, contents))
    (horder : order.Perm e.socket.destMap.destToAddr) :
    Inv m (e.take order data source contents) := by
  obtain ⟨hrun, hanswers⟩ := DestMap.run_concat h.map source horder
  have hsocket : (e.take order data source contents).socket =
      { e.socket with
        destMap := (e.socket.destMap.getOrInsert order source).2
        sending := some ⟨contents, (e.socket.destMap.getOrInsert order source).1⟩ } := by
    simp only [Endpoint.take, Socket.recv, hread]
  constructor
  · rw [hsocket]
    exact hrun
  · intro a ha
    change _ ∈ DestMap.answers .new (e.calls ++ [⟨source, order⟩])
    rw [hanswers]
    rcases List.mem_append.mp ha with ha | ha
    · exact List.mem_append_left _ (h.addrs a ha)
    · obtain rfl := List.mem_singleton.mp ha
      exact List.mem_append_right _ (List.mem_singleton_self _)
  · rw [hsocket]
    exact h.room
  · rw [hsocket]
    intro hclosed
    exact absurd (hreceives.1.symm.trans hclosed) Bool.false_ne_true
  · obtain ⟨taken, lost, hall, hcopied, hlost, hend⟩ := h.inOrder
    rw [hreceives.2, Option.toList_none, List.append_nil] at hall
    refine ⟨taken, lost, ?_, by rw [hsocket]; exact hcopied, hlost, by rw [hsocket]; exact hend⟩
    rw [hsocket]
    simp only [Endpoint.take, List.map_append, hall, List.map_cons, List.map_nil,
      Option.toList_some, List.append_assoc]

/-- An error of the bridge keeps the invariant. -/
theorem recvError (hreceives : e.socket.Receives) :
    Inv m { e with socket := { e.socket with closed := true } } where
  map := h.map
  addrs := h.addrs
  room := h.room
  closed _ := hreceives.2
  inOrder := by
    obtain ⟨taken, lost, hall, hcopied, hlost, hend⟩ := h.inOrder
    exact ⟨taken, lost, hall, hcopied, hlost, fun hne => ⟨rfl, (hend hne).2⟩⟩

/-- A datagram that is handed on keeps the invariant. -/
theorem forward {packet : Datagram} (hsending : e.socket.sending = some packet)
    (hroom : e.socket.inbound.length < udpChannelSize) :
    Inv m { e with
      socket := { e.socket with inbound := e.socket.inbound ++ [packet], sending := none } } where
  map := h.map
  addrs := h.addrs
  room := by
    rw [List.length_append, List.length_singleton]
    exact hroom
  closed _ := rfl
  inOrder := by
    obtain ⟨taken, lost, hall, hcopied, hlost, hend⟩ := h.inOrder
    rw [hsending] at hall
    refine ⟨taken, lost, by simpa using hall, hcopied, hlost, fun hne => ?_⟩
    -- A loop that has ended has nothing to pass on.
    have hnone := h.closed (hend hne).1
    rw [hsending] at hnone
    contradiction

/-- Filling the buffers keeps the invariant. -/
theorem pollRecv {bufs : List ℕ} (hbufs : bufs.length ≤ m + 1) :
    Inv m { e with
      socket := (e.socket.pollRecv bufs).2
      returned := e.returned ++ (e.socket.pollRecv bufs).1.received } := by
  obtain ⟨more, hinbound, hmore, hbroken⟩ :=
    exists_taken e.socket.localAddr e.socket.closed bufs e.socket.inbound
  obtain ⟨taken, lost, hall, hcopied, hlost, hend⟩ := h.inOrder
  set out := fillBufs e.socket.localAddr e.socket.closed bufs e.socket.inbound with hout
  have hpoll : e.socket.pollRecv bufs =
      (if out.2.2 then .brokenPipe else if out.1.isEmpty then .pending else .ready out.1,
        { e.socket with inbound := out.2.1 }) := rfl
  -- Nothing is taken once something was lost.
  have hnone : lost ≠ [] → more = [] := by
    intro hne
    rw [(hend hne).2] at hinbound
    exact (List.append_eq_nil_iff.mp hinbound.symm).1
  have hrest : lost ≠ [] → out.2.1 = [] := by
    intro hne
    rw [(hend hne).2] at hinbound
    exact (List.append_eq_nil_iff.mp hinbound.symm).2
  refine ⟨h.map, h.addrs, ?_, h.closed, ?_⟩
  · have hroom := h.room
    rw [hinbound, List.length_append] at hroom
    rw [hpoll]
    dsimp only
    omega
  · rw [hpoll]
    by_cases hbroke : out.2.2 = true
    · obtain ⟨hclosed, rfl, hlength⟩ := hbroken hbroke
      have hrestNil : out.2.1 = [] := by simpa using hinbound
      refine ⟨taken, lost ++ e.socket.inbound, ?_, ?_, ?_, fun _ => ⟨hclosed, hrestNil⟩⟩
      · dsimp only
        rw [hall, hrestNil]
        simp
      · simpa [hbroke, Poll.received] using hcopied
      · by_cases hne : lost = []
        · rw [hne, List.nil_append]
          omega
        · rw [hnone hne, List.append_nil]
          exact hlost
    · have hreceived : (if out.2.2 = true then Poll.brokenPipe
          else if out.1.isEmpty = true then .pending else .ready out.1).received = out.1 := by
        rw [if_neg hbroke]
        split
        · rename_i hempty
          rw [List.isEmpty_iff.mp hempty]
          rfl
        · rfl
      refine ⟨taken ++ more, lost, ?_, ?_, hlost, fun hne => ⟨(hend hne).1, hrest hne⟩⟩
      · dsimp only
        rw [hall, hinbound]
        by_cases hne : lost = []
        · simp [hne]
        · simp [hnone hne]
      · dsimp only
        rw [hreceived]
        exact List.rel_append hcopied hmore

end Inv

/-- Every event keeps the invariant. -/
theorem Inv.step {m : ℕ} {e next : Endpoint} {event : Event} (h : Inv m e)
    (hstep : e.step event = some next) (hbufs : event.buffers ≤ m + 1) : Inv m next := by
  cases event with
  | registerDest dest order =>
    obtain ⟨horder, heq⟩ := Option.ite_none_right_eq_some.mp hstep
    obtain rfl := Option.some.inj heq
    exact h.registerDest dest horder
  | recv data order =>
    obtain ⟨hreceives, heq⟩ := Option.ite_none_right_eq_some.mp hstep
    split at heq
    · rename_i hread
      obtain rfl := Option.some.inj heq
      have hsame : e.socket.recv order data = e.socket := by rw [Socket.recv, hread]
      rw [hsame]
      exact h
    · rename_i source contents hread
      obtain ⟨horder, heq⟩ := Option.ite_none_right_eq_some.mp heq
      obtain rfl := Option.some.inj heq
      exact h.take hreceives hread horder
  | recvError =>
    obtain ⟨hreceives, heq⟩ := Option.ite_none_right_eq_some.mp hstep
    obtain rfl := Option.some.inj heq
    exact h.recvError hreceives
  | forward =>
    rw [Endpoint.step] at hstep
    split at hstep
    · contradiction
    · rename_i packet hsending
      obtain ⟨hroom, heq⟩ := Option.ite_none_right_eq_some.mp hstep
      obtain rfl := Option.some.inj heq
      exact h.forward hsending hroom
  | pollRecv bufs =>
    obtain rfl := Option.some.inj hstep
    exact h.pollRecv hbufs

/-- What one step adds to the requests and the datagrams. The session stays. -/
structure Extends (e next : Endpoint) (event : Event) : Prop where
  sessionId : next.socket.sessionId = e.socket.sessionId
  calls : ∃ more, next.calls = e.calls ++ more ∧ ∀ call ∈ more, call.dest ∈ event.name?
  arrived : ∃ more, next.arrived = e.arrived ++ more ∧
    more.map (fun a => (a.1, a.2.contents)) = event.datagram?.toList

/-- What changes nothing that was heard only extends the endpoint. -/
theorem extends_of_same {e next : Endpoint} {event : Event}
    (hsession : next.socket.sessionId = e.socket.sessionId) (hcalls : next.calls = e.calls)
    (harrived : next.arrived = e.arrived) (hnone : event.datagram? = none) :
    Extends e next event where
  sessionId := hsession
  calls := ⟨[], by rw [hcalls, List.append_nil], fun _ h => absurd h List.not_mem_nil⟩
  arrived := ⟨[], by rw [harrived, List.append_nil], by rw [hnone]; rfl⟩

/-- Every event only extends the endpoint. -/
theorem extends_of_step {e next : Endpoint} {event : Event} (h : e.step event = some next) :
    Extends e next event := by
  cases event with
  | registerDest dest order =>
    obtain ⟨-, heq⟩ := Option.ite_none_right_eq_some.mp h
    obtain rfl := Option.some.inj heq
    refine ⟨rfl, ⟨_, rfl, fun call hcall => ?_⟩, [], (List.append_nil _).symm, rfl⟩
    rw [List.mem_singleton.mp hcall]
    rfl
  | recv data order =>
    obtain ⟨-, heq⟩ := Option.ite_none_right_eq_some.mp h
    split at heq
    · rename_i hread
      obtain rfl := Option.some.inj heq
      exact extends_of_same (by rw [Socket.recv, hread]) rfl rfl hread
    · rename_i source contents hread
      obtain ⟨-, heq⟩ := Option.ite_none_right_eq_some.mp heq
      obtain rfl := Option.some.inj heq
      refine ⟨by rw [take, Socket.recv, hread], ⟨_, rfl, fun call hcall => ?_⟩, _, rfl, ?_⟩
      · rw [List.mem_singleton.mp hcall, Event.name?, hread]
        rfl
      · rw [Event.datagram?, hread]
        rfl
  | recvError =>
    obtain ⟨-, heq⟩ := Option.ite_none_right_eq_some.mp h
    obtain rfl := Option.some.inj heq
    exact extends_of_same rfl rfl rfl rfl
  | forward =>
    rw [Endpoint.step] at h
    split at h
    · contradiction
    · obtain ⟨-, heq⟩ := Option.ite_none_right_eq_some.mp h
      obtain rfl := Option.some.inj heq
      exact extends_of_same rfl rfl rfl rfl
  | pollRecv bufs =>
    obtain rfl := Option.some.inj h
    exact extends_of_same rfl rfl rfl rfl

/-- In every run the invariant is kept, and the datagrams that arrived are those of the events. -/
theorem Inv.run {m : ℕ} {e last : Endpoint} {events : List Event} (h : Inv m e)
    (hbufs : ∀ event ∈ events, event.buffers ≤ m + 1)
    (hrun : run Endpoint.step e events = some last) :
    Inv m last ∧ last.arrived.map (fun a => (a.1, a.2.contents)) =
      e.arrived.map (fun a => (a.1, a.2.contents)) ++ events.filterMap Event.datagram? := by
  induction events generalizing e with
  | nil =>
    obtain rfl := Option.some.inj hrun
    exact ⟨h, (List.append_nil _).symm⟩
  | cons event events ih =>
    rw [List.forall_mem_cons] at hbufs
    obtain ⟨next, hstep, hrest⟩ := Core.run_cons_eq_some.mp hrun
    obtain ⟨more, harrived, hmore⟩ := (extends_of_step hstep).arrived
    obtain ⟨hlast, hall⟩ := ih (h.step hstep hbufs.1) hbufs.2 hrest
    refine ⟨hlast, ?_⟩
    rw [hall, harrived, List.map_append, hmore, List.append_assoc, List.filterMap_cons]
    cases event.datagram? <;> rfl

/-- Polls return the datagrams in the order in which they came, each once and as much of it as their
buffers hold, and with one address for each source. None is lost before the loop ends, and then no
more than a poll with its buffers takes out before the last one. -/
theorem received_in_order {m : ℕ} {sessionId destination : String} {events : List Event}
    {last : Endpoint} (hbufs : ∀ event ∈ events, event.buffers ≤ m + 1)
    (hrun : run step (start sessionId destination) events = some last) :
    last.arrived.map (fun a => (a.1, a.2.contents)) = events.filterMap Event.datagram? ∧
      (∀ a ∈ last.arrived, ∀ b ∈ last.arrived, a.1 = b.1 → a.2.addr = b.2.addr) ∧
      last.socket.inbound.length ≤ udpChannelSize ∧
      ∃ taken lost, last.arrived.map Prod.snd =
          taken ++ lost ++ (last.socket.inbound ++ last.socket.sending.toList) ∧
        List.Forall₂ (Copied last.socket.localAddr) taken last.returned ∧ lost.length ≤ m ∧
        (lost ≠ [] → last.socket.closed = true ∧ last.socket.inbound = []) := by
  obtain ⟨h, harrived⟩ := (inv_start m sessionId destination).run hbufs hrun
  refine ⟨harrived, fun a ha b hb hsource => ?_, h.room, h.inOrder⟩
  exact DestMap.answers_kept h.map _ (h.addrs a ha) _ (h.addrs b hb) hsource

/-- Two datagrams from `a`, of which the second is taken out by a poll that then finds the channel
closed. -/
def brokenEvents : List Event :=
  [.recv [97, 10, 120] [("d", DestMap.address 1)], .forward, .pollRecv [4],
    .recv [97, 10, 121, 122] [("a", DestMap.address 2), ("d", DestMap.address 1)], .forward,
    .recvError, .pollRecv [4, 4]]

/-- A datagram before the end of the bridge is received, and the one behind it is lost. -/
theorem received_in_order_broken :
    ∃ last, run step (start "s" "d") brokenEvents = some last ∧
      last.returned.map Prod.fst = [[120]] ∧ last.socket.inbound = [] ∧
      last.socket.sending = none ∧
      ∃ taken lost, last.arrived.map Prod.snd = taken ++ lost ∧ taken.length = 1 ∧
        lost.map Datagram.contents = [[121, 122]] := by
  have hlast : (run step (start "s" "d") brokenEvents).any fun last => decide
      (last.returned.map Prod.fst = [[120]] ∧ last.socket.inbound.length = 0 ∧
        last.socket.sending.isNone = true ∧
        last.arrived.map (fun a => (a.1, a.2.contents)) = [("a", [120]), ("a", [121, 122])]) := by
    decide +kernel
  obtain ⟨last, hrun, hreturned, hinbound, hsending, harrived⟩ := Core.exists_of_any hlast
  have hbufs : ∀ event ∈ brokenEvents, event.buffers ≤ 1 + 1 := by
    simp [brokenEvents, Event.buffers]
  obtain ⟨-, -, -, taken, lost, hall, hcopied, -, -⟩ := received_in_order hbufs hrun
  have hnil : last.socket.inbound = [] := List.length_eq_zero_iff.mp hinbound
  have hnone : last.socket.sending = none := Option.isNone_iff_eq_none.mp hsending
  rw [hnil, hnone, Option.toList_none, List.append_nil, List.append_nil] at hall
  have hone : taken.length = 1 := by
    rw [hcopied.length_eq, ← List.length_map Prod.fst, hreturned]
    rfl
  obtain ⟨packet, rfl⟩ := List.length_eq_one_iff.mp hone
  have hcontents : (last.arrived.map Prod.snd).map Datagram.contents = [[120], [121, 122]] := by
    simpa [Function.comp_def] using congrArg (List.map Prod.snd) harrived
  rw [hall, List.singleton_append, List.map_cons] at hcontents
  exact ⟨last, hrun, hreturned, hnil, hnone, [packet], lost, hall, rfl,
    (List.cons.inj hcontents).2⟩

end Endpoint

end Bqti.I2p
