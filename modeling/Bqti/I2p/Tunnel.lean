import Bqti.Core.NetAddrText
import Bqti.I2p.Socket

/-!
# Nodes that are connected over I2P

A node gives its packets to a bridge, which sends their contents to the destination in the header,
and gets datagrams from it with the destination of their source. Packets may be lost, doubled and
overtake each other, and other datagrams may come in between.
-/

namespace Bqti.I2p

open Bqti.Core (Bytes decodeText encodeText Along Forkless groupCount run)
open Bqti.Core.Net (SocketAddr lowerHex)

/-- The id of a session, from a random word. -/
def getSessionId (random : UInt64) : String :=
  let digits := lowerHex random.toNat
  "bqti-" ++ String.ofList (List.replicate (16 - digits.length) '0' ++ digits)

/-- The bridge: how it reads a packet, the destination of a session and the node that a destination
stands for. -/
structure Bridge (N : Type*) where
  read : Bytes → Option (String × String × Bytes)
  session : String → Option String
  route : String → Option N

/-- No blanks or line breaks. -/
def Plain (text : String) : Prop := ' ' ∉ text.toList ∧ '\n' ∉ text.toList

instance (text : String) : Decidable (Plain text) := inferInstanceAs (Decidable (_ ∧ _))

/-- A bridge reads the header of a packet, and knows the sessions of the nodes. -/
structure Bridge.Lawful {N : Type*} (bridge : Bridge N) (random : N → UInt64)
    (destination : N → String) : Prop where
  read_packet : ∀ id dest contents, Plain id → Plain dest →
    bridge.read (Socket.packet id dest contents) = some (id, dest, contents)
  session : ∀ i, bridge.session (getSessionId (random i)) = some (destination i)

/-- A datagram as it comes from the bridge. -/
def forwarded (source : String) (contents : Bytes) : Bytes :=
  encodeText source.toList ++ 10 :: contents

/-- A packet that a node has given to its bridge, and the address that it was for. -/
structure Sent (N : Type*) where
  node : N
  addr : SocketAddr
  packet : Bytes

/-- The sockets of all nodes, what was sent, and the other datagrams that came. -/
structure Net (N : Type*) where
  endpoints : N → Endpoint
  sent : List (Sent N)
  foreign : List (N × Bytes)

/-- What happens to one socket, a packet that is sent or refused, and one that is delivered. -/
inductive Label (N : Type*)
  | own (node : N) (event : Event)
  | send (node : N) (addr : SocketAddr) (contents : Bytes) (trySendTo : Except Unit Unit)
  | deliver (k : ℕ) (order : List (String × SocketAddr))

/-- The number of buffers of a poll. -/
def Label.buffers {N : Type*} : Label N → ℕ
  | .own _ event => event.buffers
  | .send _ _ _ _ | .deliver _ _ => 0

/-- What comes to a socket. -/
def Event.data? : Event → Option Bytes
  | .recv data _ => some data
  | .registerDest _ _ | .recvError | .forward | .pollRecv _ => none

namespace Net

variable {N : Type*} [DecidableEq N] (bridge : Bridge N) (random : N → UInt64)
  (destination : N → String)

/-- A network before anything was sent. -/
def start : Net N where
  endpoints i := Endpoint.start (getSessionId (random i)) (destination i)
  sent := []
  foreign := []

/-- Another datagram comes to a node. -/
def addForeign (net : Net N) (node : N) (data : Option Bytes) : Net N :=
  { net with foreign := net.foreign ++ data.toList.map (node, ·) }

/-- Something happens to the socket of a node. -/
def act (net : Net N) (node : N) (event : Event) : Option (Net N) :=
  ((net.endpoints node).step event).map fun next =>
    { net with endpoints := Function.update net.endpoints node next }

/-- Where a packet goes: its source, the node that gets it, and its contents. -/
def target (packet : Bytes) : Option (String × N × Bytes) :=
  (bridge.read packet).bind fun out =>
    (bridge.session out.1).bind fun source =>
      (bridge.route out.2.1).map fun node => (source, node, out.2.2)

/-- One step. -/
def step (net : Net N) : Label N → Option (Net N)
  | .own node event => (net.addForeign node event.data?).act node event
  | .send node addr contents trySendTo =>
      some { net with
        sent := net.sent ++ ((net.endpoints node).socket.trySend addr contents
          trySendTo).2.toList.map (⟨node, addr, ·⟩) }
  | .deliver k order =>
      (net.sent[k]?).bind fun sent =>
        (target bridge sent.packet).bind fun out =>
          net.act out.2.1 (.recv (forwarded out.1 out.2.2) order)

/-- The names that addresses are asked for are plain. -/
def Proper : Label N → Prop
  | .own _ event => ∀ name ∈ event.name?, Plain name
  | .send _ _ _ _ | .deliver _ _ => True

end Net

/-! ## Texts -/

/-- A session has a plain name. -/
theorem plain_getSessionId (random : UInt64) : Plain (getSessionId random) := by
  have hchars : ∀ c ∈ (getSessionId random).toList,
      c ∈ "bqti-0".toList ∨ c ∈ Core.Net.hexChars := by
    intro c hc
    simp only [getSessionId, String.toList_append, String.toList_ofList, List.mem_append,
      List.mem_replicate] at hc
    rcases hc with hc | ⟨-, rfl⟩ | hc
    · exact .inl (List.mem_append_left ['0'] hc)
    · exact .inl (by decide)
    · exact .inr (Core.Net.mem_hexChars_of_mem_lowerHex hc)
  exact ⟨fun h => absurd (hchars _ h) (by decide), fun h => absurd (hchars _ h) (by decide)⟩

/-- A line without a line break has none at any index. -/
theorem findIdx?_eq_none {line : Bytes} (h : 10 ∉ line) : line.findIdx? (· == 10) = none := by
  rw [List.findIdx?_eq_none_iff]
  intro b hb
  have hne : b ≠ 10 := fun heq => h (heq ▸ hb)
  simpa using hne

/-- The first line break is behind the line. -/
theorem findIdx?_newline {line : Bytes} (h : 10 ∉ line) (rest : Bytes) :
    (line ++ 10 :: rest).findIdx? (· == 10) = some line.length := by
  rw [List.findIdx?_append, findIdx?_eq_none h]
  simp [List.findIdx?_cons]

/-- What is read of a datagram from the bridge that is cut to a size is its source and the beginning
of its contents. -/
theorem readDatagram_forwarded {source : String} (h : '\n' ∉ source.toList) {contents : Bytes}
    {size : ℕ} {out : String × Bytes}
    (hread : readDatagram ((forwarded source contents).take size) = some out) :
    out.1 = source ∧ out.2 <+: contents := by
  have hline : 10 ∉ encodeText source.toList := fun hmem => h (Core.mem_encodeText_newline.mp hmem)
  rw [forwarded, List.take_append] at hread
  by_cases hsize : size ≤ (encodeText source.toList).length
  · -- The line break is cut off.
    rw [Nat.sub_eq_zero_of_le hsize, List.take_zero, List.append_nil] at hread
    have hnone := findIdx?_eq_none fun hmem => hline (List.mem_of_mem_take (i := size) hmem)
    rw [readDatagram, hnone] at hread
    contradiction
  · obtain ⟨more, hmore⟩ := Nat.exists_eq_add_of_lt (not_le.mp hsize)
    rw [List.take_of_length_le (by omega), hmore,
      show (encodeText source.toList).length + more + 1 - (encodeText source.toList).length =
        more + 1 by omega, List.take_succ_cons, readDatagram, findIdx?_newline hline] at hread
    simp only [List.take_left, Core.decodeText_encodeText, Option.map_some, String.ofList_toList,
      Option.some.injEq] at hread
    subst hread
    refine ⟨rfl, ?_⟩
    have hdrop : (encodeText source.toList ++ 10 :: contents.take more).drop
        ((encodeText source.toList).length + 1) = contents.take more := by
      rw [List.drop_append, List.drop_eq_nil_of_le (by omega)]
      simp
    rw [hdrop]
    exact List.take_prefix more contents

/-! ## Runs -/

/-- There is one answer to each call. -/
theorem DestMap.map_fst_answers (map : DestMap) (calls : List DestMap.Call) :
    (DestMap.answers map calls).map Prod.fst = calls.map DestMap.Call.dest := by
  induction calls generalizing map with
  | nil => rfl
  | cons call calls ih => simp only [answers, List.map_cons, ih]

/-- The names that a socket was asked for tell destinations apart: none is comparable to one of two
comparable earlier ones and not to the other, and there are addresses enough. -/
def Endpoint.Distinct (e : Endpoint) : Prop :=
  Forkless Comparable (e.calls.map DestMap.Call.dest).reverse ∧
    groupCount Comparable (e.calls.map DestMap.Call.dest).reverse ≤ 2 ^ 32

/-- Different destinations make the answers of an endpoint faithful. -/
theorem Endpoint.Distinct.faithful {e : Endpoint} {m : ℕ} (h : e.Distinct) (hinv : e.Inv m) :
    DestMap.Faithful e.socket.destMap (DestMap.answers .new e.calls) := by
  obtain ⟨entries, n, hlast, hkeys, hanswers⟩ :=
    DestMap.run_represents DestMap.represents_new hinv.map
  rw [List.append_nil] at hlast
  rw [hanswers]
  refine hlast.faithful (hlast.grouped.clique (hkeys ▸ h.1)) ?_
  rw [hlast.grouped.count_eq, hkeys]
  exact h.2

namespace Net

variable {N : Type*} [DecidableEq N] {bridge : Bridge N} {random : N → UInt64}
  {destination : N → String}

/-- The packet was sent by the node for a name that stands for another one, with contents that begin
with the given ones. -/
def From (bridge : Bridge N) (random : N → UInt64) (sent : Sent N) (node : N)
    (contents : Bytes) : Prop :=
  ∃ name payload, Plain name ∧
    sent.packet = Socket.packet (getSessionId (random sent.node)) name payload ∧
    bridge.route name = some node ∧ contents <+: payload

/-- Where a datagram comes from. -/
def Origin (bridge : Bridge N) (random : N → UInt64) (destination : N → String) (net : Net N)
    (node : N) (source : String) (contents : Bytes) : Prop :=
  (∃ data, (node, data) ∈ net.foreign ∧
    readDatagram (data.take udpPacketSize) = some (source, contents)) ∨
  ∃ sent ∈ net.sent, source = destination sent.node ∧ From bridge random sent node contents

/-- What holds of all nodes in every state that is reached with plain names. -/
structure Inv (bridge : Bridge N) (random : N → UInt64) (destination : N → String) (m : ℕ)
    (net : Net N) : Prop where
  endpoint : ∀ i, (net.endpoints i).Inv m
  session : ∀ i, (net.endpoints i).socket.sessionId = getSessionId (random i)
  plain : ∀ i, ∀ call ∈ (net.endpoints i).calls, Plain call.dest
  sent : ∀ sent ∈ net.sent, ∃ name contents,
    sent.packet = Socket.packet (getSessionId (random sent.node)) name contents ∧
    (name, sent.addr) ∈ DestMap.answers .new (net.endpoints sent.node).calls
  origin : ∀ i, ∀ a ∈ (net.endpoints i).arrived,
    Origin bridge random destination net i a.1 a.2.contents

omit [DecidableEq N] in
/-- A network starts with its invariant. -/
theorem inv_start (m : ℕ) (hplain : ∀ i, Plain (destination i)) :
    Inv bridge random destination m (start random destination) where
  endpoint i := Endpoint.inv_start m _ _
  session _ := rfl
  plain i call hcall := by
    rw [List.mem_singleton.mp hcall]
    exact hplain i
  sent _ h := absurd h List.not_mem_nil
  origin _ _ h := absurd h List.not_mem_nil

namespace Inv

variable {m : ℕ} {net : Net N} (h : Inv bridge random destination m net)
include h

omit [DecidableEq N] in
/-- A foreign datagram keeps the invariant. -/
theorem addForeign (node : N) (data : Option Bytes) :
    Inv bridge random destination m (net.addForeign node data) where
  endpoint := h.endpoint
  session := h.session
  plain := h.plain
  sent := h.sent
  origin i a ha := by
    rcases h.origin i a ha with ⟨data, hdata, hread⟩ | hsent
    · exact .inl ⟨data, List.mem_append_left _ hdata, hread⟩
    · exact .inr hsent

/-- An event at an endpoint keeps the invariant. -/
theorem act {next : Net N} {node : N} {event : Event} (hact : net.act node event = some next)
    (hbufs : event.buffers ≤ m + 1) (hname : ∀ name ∈ event.name?, Plain name)
    (horigin : ∀ out ∈ event.datagram?, Origin bridge random destination net node out.1 out.2) :
    Inv bridge random destination m next := by
  obtain ⟨e, hstep, rfl⟩ := Option.map_eq_some_iff.mp hact
  have hext := Endpoint.extends_of_step hstep
  obtain ⟨calls, hcalls, hnames⟩ := hext.calls
  obtain ⟨arrived, harrived, hdatagram⟩ := hext.arrived
  constructor
  · intro i
    by_cases hi : i = node
    · subst hi
      simpa using (h.endpoint i).step hstep hbufs
    · simpa [hi] using h.endpoint i
  · intro i
    by_cases hi : i = node
    · subst hi
      simpa using hext.sessionId.trans (h.session i)
    · simpa [hi] using h.session i
  · intro i call hcall
    dsimp only at hcall
    by_cases hi : i = node
    · subst hi
      rw [Function.update_self, hcalls, List.mem_append] at hcall
      rcases hcall with hold | hnew
      · exact h.plain i call hold
      · exact hname _ (hnames call hnew)
    · rw [Function.update_of_ne hi] at hcall
      exact h.plain i call hcall
  · intro sent hsent
    obtain ⟨name, contents, hpacket, hanswer⟩ := h.sent sent hsent
    refine ⟨name, contents, hpacket, ?_⟩
    by_cases hi : sent.node = node
    · subst hi
      simp only [Function.update_self]
      rw [hcalls, DestMap.answers_append _ (h.endpoint _).map]
      exact List.mem_append_left _ hanswer
    · simpa [hi] using hanswer
  · intro i a ha
    change Origin bridge random destination net i a.1 a.2.contents
    dsimp only at ha
    by_cases hi : i = node
    · subst hi
      rw [Function.update_self, harrived, List.mem_append] at ha
      rcases ha with hold | hnew
      · exact h.origin i a hold
      · have hmem : (a.1, a.2.contents) ∈ event.datagram?.toList := by
          rw [← hdatagram]
          exact List.mem_map_of_mem hnew
        exact horigin _ (Option.mem_toList.mp hmem)
    · rw [Function.update_of_ne hi] at ha
      exact h.origin i a ha

omit [DecidableEq N] in
/-- A datagram that is sent keeps the invariant. -/
theorem send (node : N) (addr : SocketAddr) (contents : Bytes) (trySendTo : Except Unit Unit) :
    Inv bridge random destination m { net with
      sent := net.sent ++ ((net.endpoints node).socket.trySend addr contents
        trySendTo).2.toList.map (⟨node, addr, ·⟩) } where
  endpoint := h.endpoint
  session := h.session
  plain := h.plain
  sent sent hsent := by
    rcases List.mem_append.mp hsent with hold | hnew
    · exact h.sent sent hold
    · obtain ⟨packet, hpacket, rfl⟩ := List.mem_map.mp hnew
      rw [Option.mem_toList, Socket.trySend] at hpacket
      split at hpacket
      · contradiction
      · rename_i name hresolve
        cases trySendTo with
        | error e => contradiction
        | ok u =>
          obtain rfl := Option.some.inj hpacket
          rw [h.session]
          exact ⟨name, contents, rfl,
            DestMap.mem_answers_of_resolve (h.endpoint node).map hresolve⟩
  origin i a ha := by
    rcases h.origin i a ha with hforeign | ⟨sent, hsent, hfrom⟩
    · exact .inl hforeign
    · exact .inr ⟨sent, List.mem_append_left _ hsent, hfrom⟩

omit [DecidableEq N] in
/-- Every destination that has an address is plain. -/
theorem plain_of_answer {i : N} {name : String} {addr : SocketAddr}
    (hanswer : (name, addr) ∈ DestMap.answers .new (net.endpoints i).calls) : Plain name := by
  have hkey := List.mem_map_of_mem (f := Prod.fst) hanswer
  rw [DestMap.map_fst_answers] at hkey
  obtain ⟨call, hcall, rfl⟩ := List.mem_map.mp hkey
  exact h.plain i call hcall

/-- Every step keeps the invariant. -/
theorem step {next : Net N} {label : Label N} (hbridge : bridge.Lawful random destination)
    (hplain : ∀ i, Plain (destination i)) (hproper : Proper label)
    (hbufs : label.buffers ≤ m + 1) (hstep : net.step bridge label = some next) :
    Inv bridge random destination m next := by
  cases label with
  | own node event =>
    refine (h.addForeign node event.data?).act hstep hbufs hproper fun out hout => ?_
    -- Only a datagram that comes is read.
    cases event with
    | recv data order => exact .inl ⟨data, by simp [Net.addForeign, Event.data?], hout⟩
    | _ => contradiction
  | send node addr contents trySendTo =>
    obtain rfl := Option.some.inj hstep
    exact h.send node addr contents trySendTo
  | deliver k order =>
    obtain ⟨sent, hsent, hstep⟩ := Option.bind_eq_some_iff.mp hstep
    obtain ⟨⟨source, node, payload⟩, htarget, hact⟩ := Option.bind_eq_some_iff.mp hstep
    have hmem := List.mem_of_getElem? hsent
    obtain ⟨name, contents, hpacket, hanswer⟩ := h.sent sent hmem
    have hname := h.plain_of_answer hanswer
    rw [target, hpacket, hbridge.read_packet _ _ _ (plain_getSessionId _) hname,
      Option.bind_some, hbridge.session, Option.bind_some] at htarget
    obtain ⟨_, hroute, heq⟩ := Option.map_eq_some_iff.mp htarget
    simp only [Prod.mk.injEq] at heq
    obtain ⟨rfl, rfl, rfl⟩ := heq
    have hread : ∀ out ∈ (Event.recv (forwarded (destination sent.node) contents) order).datagram?,
        out.1 = destination sent.node ∧ out.2 <+: contents :=
      fun out hout => readDatagram_forwarded (hplain sent.node).2 hout
    refine h.act hact (Nat.zero_le _) (fun name' hname' => ?_) fun out hout => ?_
    · obtain ⟨out, hout, rfl⟩ := Option.map_eq_some_iff.mp hname'
      rw [(hread out hout).1]
      exact hplain sent.node
    · exact .inr ⟨sent, hmem, (hread out hout).1, name, contents, hname, hpacket, hroute,
        (hread out hout).2⟩

end Inv

/-- Every run keeps the invariant. -/
theorem Inv.run {m : ℕ} {net last : Net N} {labels : List (Label N)}
    (h : Inv bridge random destination m net) (hbridge : bridge.Lawful random destination)
    (hplain : ∀ i, Plain (destination i)) (hproper : ∀ label ∈ labels, Proper label)
    (hbufs : ∀ label ∈ labels, label.buffers ≤ m + 1)
    (hrun : run (Net.step bridge) net labels = some last) :
    Inv bridge random destination m last := by
  induction labels generalizing net with
  | nil =>
    obtain rfl := Option.some.inj hrun
    exact h
  | cons label labels ih =>
    rw [List.forall_mem_cons] at hproper hbufs
    obtain ⟨next, hstep, hrest⟩ := Core.run_cons_eq_some.mp hrun
    exact ih (h.step hbridge hplain hproper.1 hbufs.1 hstep) hproper.2 hbufs.2 hrest

/-- What was returned is a copy of what was taken. -/
theorem exists_copied {localAddr : SocketAddr} {taken : List Datagram} {returned : List Received}
    (h : List.Forall₂ (Copied localAddr) taken returned) :
    ∀ received ∈ returned, ∃ packet ∈ taken, Copied localAddr packet received := by
  induction h with
  | nil => simp
  | @cons packet received taken returned hone hrest ih =>
    rw [List.forall_mem_cons]
    refine ⟨⟨packet, List.mem_cons_self, hone⟩, fun received hmem => ?_⟩
    obtain ⟨packet', hpacket, hcopied⟩ := ih received hmem
    exact ⟨packet', List.mem_cons_of_mem _ hpacket, hcopied⟩

/-- What a poll has returned begins a datagram that has arrived. -/
theorem exists_arrived {e : Endpoint} {m : ℕ} (h : e.Inv m) {received : Received}
    (hmem : received ∈ e.returned) :
    ∃ a ∈ e.arrived, received.2.addr = a.2.addr ∧ received.1 <+: a.2.contents := by
  obtain ⟨taken, lost, hall, hcopied, -⟩ := h.inOrder
  obtain ⟨packet, hpacket, size, rfl⟩ := exists_copied hcopied received hmem
  have harrived : packet ∈ e.arrived.map Prod.snd := by
    rw [hall]
    exact List.mem_append_left _ (List.mem_append_left _ hpacket)
  obtain ⟨a, ha, rfl⟩ := List.mem_map.mp harrived
  exact ⟨a, ha, rfl, List.take_prefix _ _⟩

omit [DecidableEq N] in
/-- The buffers of a run are bounded. -/
theorem exists_bound (labels : List (Label N)) :
    ∃ m, ∀ label ∈ labels, label.buffers ≤ m + 1 := by
  induction labels with
  | nil => exact ⟨0, by simp⟩
  | cons label labels ih =>
    obtain ⟨m, hm⟩ := ih
    refine ⟨max label.buffers m, List.forall_mem_cons.mpr ⟨by omega, fun label' hlabel => ?_⟩⟩
    have hle := hm label' hlabel
    omega

/-- Over plain names, what a socket returns from an address begins what its source has sent to this
node, or came from elsewhere with the name of this source. If the names that the socket was asked
for tell destinations apart, what it sends back to the address goes to a name that is comparable to
the source; and if those of the source do, it had sent to a name that is comparable to all that it
had this address for. -/
theorem received_from (hbridge : bridge.Lawful random destination)
    (hplain : ∀ i, Plain (destination i)) {labels : List (Label N)} {last : Net N}
    (hproper : ∀ label ∈ labels, Proper label)
    (hrun : Core.run (step bridge) (start random destination) labels = some last) {j : N}
    {received : Received} (hreceived : received ∈ (last.endpoints j).returned) :
    ∃ source contents, received.1 <+: contents ∧
      ((last.endpoints j).Distinct → ∃ dest,
        (last.endpoints j).socket.destMap.resolve received.2.addr = some dest ∧
          Comparable dest source) ∧
      ((∃ data, (j, data) ∈ last.foreign ∧
          readDatagram (data.take udpPacketSize) = some (source, contents)) ∨
        ∃ sent ∈ last.sent, source = destination sent.node ∧ ∃ name payload,
          sent.packet = Socket.packet (getSessionId (random sent.node)) name payload ∧
          bridge.route name = some j ∧ contents <+: payload ∧
          ((last.endpoints sent.node).Distinct → ∀ asked,
            (asked, sent.addr) ∈ DestMap.answers .new (last.endpoints sent.node).calls →
              Comparable name asked)) := by
  obtain ⟨m, hbufs⟩ := exists_bound labels
  have h := (inv_start m hplain).run hbridge hplain hproper hbufs hrun
  obtain ⟨a, ha, haddr, hcontents⟩ := exists_arrived (h.endpoint j) hreceived
  refine ⟨a.1, a.2.contents, hcontents, fun hdistinct => ?_, ?_⟩
  · rw [haddr]
    exact (hdistinct.faithful (h.endpoint j)).resolved _ ((h.endpoint j).addrs a ha)
  · rcases h.origin j a ha with hforeign | ⟨sent, hsent, hsource, hfrom⟩
    · exact .inl hforeign
    · obtain ⟨name, payload, hname, hpacket, hroute, hpayload⟩ := hfrom
      refine .inr ⟨sent, hsent, hsource, name, payload, hpacket, hroute, hpayload, ?_⟩
      intro hdistinct asked hasked
      obtain ⟨name', payload', hpacket', hanswer⟩ := h.sent sent hsent
      -- The packet has one header.
      have hread := hbridge.read_packet _ _ payload (plain_getSessionId (random sent.node)) hname
      rw [← hpacket, hpacket', hbridge.read_packet _ _ _ (plain_getSessionId _)
        (h.plain_of_answer hanswer)] at hread
      simp only [Option.some.injEq, Prod.mk.injEq, true_and] at hread
      obtain ⟨rfl, -⟩ := hread
      exact (hdistinct.faithful (h.endpoint _)).apart _ hanswer _ hasked rfl

/-! ## Two nodes -/

/-- The fields of the header and what follows it. -/
def readPacket (packet : Bytes) : Option (String × String × Bytes) :=
  (Core.splitAfter 10 packet).bind fun out =>
    (decodeText out.1.dropLast).bind fun text =>
      if text.take 4 = ['3', '.', '0', ' '] then
        some (String.ofList ((text.drop 4).takeWhile (· != ' ')),
          String.ofList ((text.drop 4).dropWhile (· != ' ')).tail, out.2)
      else none

/-- A datagram is read back with its session and its destination. -/
theorem readPacket_packet {id dest : String} (contents : Bytes) (hid : Plain id)
    (hdest : Plain dest) :
    readPacket (Socket.packet id dest contents) = some (id, dest, contents) := by
  set text := ['3', '.', '0', ' '] ++ (id.toList ++ ' ' :: dest.toList) with htext
  have hline : 10 ∉ encodeText text := by
    rw [Core.mem_encodeText_newline, htext]
    simp [hid.2, hdest.2]
  have hpacket : Socket.packet id dest contents = encodeText text ++ 10 :: contents := by
    have hbreak : encodeText ['\n'] = [10] := by decide
    rw [Socket.packet, Core.encodeText_append, hbreak, htext]
    simp
  have hfirst : ∀ c ∈ id.toList, (c != ' ') = true := by
    intro c hc
    have hne : c ≠ ' ' := fun heq => hid.1 (heq ▸ hc)
    simpa using hne
  rw [hpacket, readPacket, Core.splitAfter_append_of_none hline, Core.splitAfter, if_pos rfl]
  simp only [Option.map_some, Option.bind_some, List.dropLast_concat, Core.decodeText_encodeText]
  have hversion : text.take 4 = ['3', '.', '0', ' '] := rfl
  have hrest : text.drop 4 = id.toList ++ ' ' :: dest.toList := rfl
  rw [if_pos hversion, hrest, List.takeWhile_append_of_pos hfirst,
    List.dropWhile_append_of_pos hfirst]
  simp

/-- The bridge of two nodes with the destinations `a` and `b`. -/
def pairBridge : Bridge Bool where
  read := readPacket
  session id :=
    if id = getSessionId 0 then some "a" else if id = getSessionId 1 then some "b" else none
  route dest := if dest = "a" then some false else if dest = "b" then some true else none

/-- The first node sends a byte to the second one. -/
def pairLabels : List (Label Bool) :=
  [.own false (.registerDest "b" [("a", DestMap.address 1)]),
    .send false (DestMap.address 2) [120] (.ok ()),
    .deliver 0 [("b", DestMap.address 1)], .own true .forward, .own true (.pollRecv [4])]

/-- A datagram between two nodes is received from the one that sent it. -/
theorem received_from_pair :
    ∃ last received sent dest, Core.run (step pairBridge)
        (start (fun i => if i then 1 else 0) fun i => if i then "b" else "a") pairLabels =
          some last ∧
      received ∈ (last.endpoints true).returned ∧ received.1 = [120] ∧
      sent ∈ last.sent ∧ sent.node = false ∧
      (last.endpoints true).socket.destMap.resolve received.2.addr = some dest ∧
      Comparable dest "a" := by
  set random : Bool → UInt64 := fun i => if i then 1 else 0 with hrandom
  set destination : Bool → String := fun i => if i then "b" else "a" with hdestination
  have hlast : (Core.run (step pairBridge) (start random destination) pairLabels).any
      fun last => decide ((last.endpoints true).returned.map Prod.fst = [[120]] ∧
        (last.endpoints true).calls.map DestMap.Call.dest = ["b", "a"] ∧
        last.foreign.length = 0 ∧ last.sent.map Sent.node = [false]) := by
    decide +kernel
  obtain ⟨last, hrun, hreturned, hcalls, hforeign, hsent⟩ := Core.exists_of_any hlast
  have hbridge : pairBridge.Lawful random destination :=
    ⟨fun id dest contents => readPacket_packet contents, by decide +kernel⟩
  have hplain : ∀ i, Plain (destination i) := by decide +kernel
  have hproper : ∀ label ∈ pairLabels, Proper label := by
    simp [pairLabels, Proper, Event.name?]
    decide
  obtain ⟨received, hone⟩ := List.length_eq_one_iff.mp
    ((List.length_map Prod.fst).symm.trans (congrArg List.length hreturned))
  have hreceived : received ∈ (last.endpoints true).returned := by
    rw [hone]
    exact List.mem_singleton_self _
  obtain ⟨source, contents, -, hback, hfrom⟩ :=
    received_from hbridge hplain hproper hrun hreceived
  have hdistinct : (last.endpoints true).Distinct := by
    rw [Endpoint.Distinct, hcalls]
    exact ⟨by simp [Forkless], by decide +kernel⟩
  obtain ⟨dest, hresolve, hnear⟩ := hback hdistinct
  rcases hfrom with ⟨data, hdata, -⟩ | ⟨sent, hmem, rfl, -⟩
  · rw [List.length_eq_zero_iff.mp hforeign] at hdata
    exact absurd hdata List.not_mem_nil
  · have hnode : sent.node = false := by
      have hmap := List.mem_map_of_mem (f := Sent.node) hmem
      rw [hsent] at hmap
      exact List.mem_singleton.mp hmap
    refine ⟨last, received, sent, dest, hrun, hreceived, ?_, hmem, hnode, hresolve, ?_⟩
    · rw [hone] at hreturned
      simpa using hreturned
    · simpa [hdestination, hnode] using hnear

end Net

end Bqti.I2p
