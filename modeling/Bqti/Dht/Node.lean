import Mathlib.Data.List.Basic
import Bqti.Core.Pool
import Bqti.Core.Run
import Bqti.Dht.Auth.Manager

/-!
# A node of the DHT

Every packet is handled by its own task, which looks up the connection registered for the
address the packet came from. Handshakes write the key of the peer into that connection, and
later requests on it are served in the name of that key. The node also joins the network and
authenticates itself to others, in tasks of the same node; a join that succeeds writes the
key of the bootstrap node into its connection. Each task advances from one await to the next,
so that the tasks interleave in every order.
-/

namespace Bqti.Dht

open Bqti.Core

/-- The number of a call; a 64-bit counter that wraps. -/
abbrev RequestId := Nat

/-- Requests that a peer may send before it is authenticated. -/
inductive DhtRequest (D R : Type*)
  | requestHandshake (senderId : Key D)
  | submitHandshake (token : Token D) (signature : Bytes)
  | requestChallange (senderId : Key D)
  | submitChallange (senderId : Key D) (challange : D) (nonce : UInt32) (signature : Bytes)
      (attestReport : Option R) (appVersion : String)
  deriving DecidableEq

/-- The responses of a handshake; `other` stands for those of authenticated requests. -/
inductive DhtResponse (D : Type*)
  | handshakeChallange (nonce : UInt32)
  | pong (receiverId : Key D)
  | challange (challange difficulty : UInt32)
  | welcome (token : Token D)
  | other
  deriving DecidableEq

/-- A packet; `Q` is the type of authenticated requests. -/
inductive DhtPacket (D R Q : Type*)
  | request (id : RequestId) (payload : Q)
  | handShake (id : RequestId) (payload : DhtRequest D R)
  | response (id : RequestId) (payload : DhtResponse D)
  deriving DecidableEq

/-- The failures that end a task. -/
inductive KademliaError
  | auth (error : AuthError)
  | rpc
  | unexpectedResponse
  | unknownConnection
  | panic
  deriving DecidableEq, Repr

/-- A connection: its remote address, who its peer has proved to be, whether this node has proved
itself to the peer, and whether it was closed here. -/
structure Connection (D : Type*) where
  remote : SocketAddr
  inboundAuth : Option (Key D)
  outboundAuth : Bool
  closed : Bool
  deriving DecidableEq, Repr

/-- A new connection is not authenticated in either direction. -/
def Connection.new {D : Type*} (remote : SocketAddr) : Connection D := ⟨remote, none, false, false⟩

/-- What a key was accepted for: an ownership signature over a challenge, a proof of work, or a
token that welcomed this node. -/
inductive Proof (D : Type*)
  | ownership (token : Token D) (signature : Bytes) (challange : UInt32)
  | work (senderId : Key D) (value : D) (nonce : UInt32) (signature : Bytes)
  | welcome (token : Token D)
  deriving DecidableEq

/-- A key that was written into a connection, with the address of the peer. -/
structure Authenticated (D : Type*) where
  conn : Nat
  addr : SocketAddr
  key : Key D
  proof : Proof D
  deriving DecidableEq

/-- Where a task stands. The first group handles packets, the second one joins the network
through a bootstrap node, the third one authenticates this node to a target. -/
inductive Task (D R Q : Type*)
  | arrived (src : SocketAddr) (packet : DhtPacket D R Q)
  | found (src : SocketAddr) (conn : Nat) (packet : DhtPacket D R Q)
  | requested (src : SocketAddr) (conn : Nat) (sender : Key D) (id : RequestId) (payload : Q)
  | handling (src : SocketAddr) (conn : Nat) (sender : Key D) (id : RequestId) (payload : Q)
  | challenged (src : SocketAddr) (conn : Nat) (id : RequestId) (token : Token D)
      (signature : Bytes) (challange : UInt32)
  | submitted (src : SocketAddr) (conn : Nat) (id : RequestId) (senderId : Key D)
      (secret : PoW D R)
  | replying (src : SocketAddr) (conn : Nat) (id : RequestId) (response : DhtResponse D)
      (grant : Option (Token D × Proof D))
  | replied (src : SocketAddr) (conn : Nat) (token : Token D) (proof : Proof D)
  | joining (bootstrap : SocketAddr) (attempt : Nat)
  | awaitingChallange (bootstrap : SocketAddr) (attempt : Nat) (id : RequestId)
  | proving (bootstrap : SocketAddr) (attempt : Nat) (challange difficulty : UInt32)
  | solved (bootstrap : SocketAddr) (attempt : Nat) (secret : PoW D R)
  | awaitingWelcome (bootstrap : SocketAddr) (attempt : Nat) (id : RequestId)
  | welcomed (bootstrap : SocketAddr) (attempt : Nat) (id : RequestId) (source : SocketAddr)
      (token : Token D)
  | trusted (bootstrap : SocketAddr) (token : Token D)
  | binding (bootstrap : SocketAddr) (conn : Nat) (token : Token D)
  | storing (token : Token D)
  | authenticating (target : Key D) (addr : SocketAddr)
  | greeting (target : Key D) (addr : SocketAddr) (token : Token D)
  | awaitingNonce (target : Key D) (addr : SocketAddr) (token : Token D) (id : RequestId)
  | signing (target : Key D) (addr : SocketAddr) (token : Token D) (nonce : UInt32)
  | presenting (target : Key D) (addr : SocketAddr) (token : Token D) (signature : Bytes)
  | awaitingPong (target : Key D) (addr : SocketAddr) (id : RequestId)
  | finished (result : Except KademliaError Unit)
  deriving DecidableEq

/-- What never changes at a node: the libraries, its identity and the check of attestations. -/
structure Host (D P S R : Type*) where
  crypto : Crypto D P S
  identity : Identity D
  verifyReport : R → D → Bytes → Bool
  version : String

/-- The key of the node itself. -/
def Host.key {D P S R : Type*} (host : Host D P S R) : Key D :=
  Key.new host.crypto host.identity.pubKey

/-- A node: its clock and salt, the PGP keys it has loaded, its own token, all connections ever
made with the table of the registered ones, its tasks, the packets it has sent, its calls that
wait for a response and the responses that have arrived for them, with where they came from, and
the keys that were written into connections. -/
structure Node (D P R Q : Type*) where
  now : UInt64
  salt : Bytes
  pgpKeys : D → Option P
  limiter : RateLimiter D
  token : Option (Token D)
  connections : List (Connection D)
  table : SocketAddr → Option Nat
  tasks : List (Task D R Q)
  sent : List (SocketAddr × DhtPacket D R Q)
  nextId : RequestId
  pending : List RequestId
  answers : RequestId → Option (SocketAddr × DhtResponse D)
  history : List (Authenticated D)

/-- What the outside decides about a step: whether connecting and sending succeed and a response
comes in time, the manifest, and the nonce that the search for a proof of work ends with. -/
structure Outcome where
  ok : Bool := true
  manifest : Option Bytes := none
  nonce : UInt32 := 0

/-- A step of the node or its surroundings. -/
inductive Label (D P R Q : Type*)
  | packet (src : SocketAddr) (packet : DhtPacket D R Q)
  | join (bootstrap : SocketAddr)
  | authenticate (target : Key D) (addr : SocketAddr)
  | advance (k : Nat) (outcome : Outcome)
  | clock (now : UInt64)
  | renewSalt (salt : Bytes)
  | loadKeys (pgpKeys : D → Option P)
  | connect (addr : SocketAddr)
  | disconnect (addr : SocketAddr)

namespace Node

variable {D P S R Q : Type*}

/-- A node that has just started. -/
def start (salt : Bytes) : Node D P R Q where
  now := 0
  salt := salt
  pgpKeys := fun _ => none
  limiter := .new
  token := none
  connections := []
  table := fun _ => none
  tasks := []
  sent := []
  nextId := 0
  pending := []
  answers := fun _ => none
  history := []

/-- Change one connection. -/
def onConnection (n : Node D P R Q) (conn : Nat) (f : Connection D → Connection D) :
    Node D P R Q :=
  { n with connections := n.connections.modify conn f }

/-- Who the peer of a connection has proved to be. -/
def inboundSender (n : Node D P R Q) (conn : Nat) : Option (Key D) :=
  (n.connections[conn]?).bind (·.inboundAuth)

/-- The remote address of a connection. -/
def remote (n : Node D P R Q) (conn : Nat) : Option SocketAddr :=
  (n.connections[conn]?).map (·.remote)

/-- Write the key of an authenticated peer into its connection. -/
def setInboundPeer (n : Node D P R Q) (conn : Nat) (key : Key D) : Node D P R Q :=
  n.onConnection conn fun c => { c with inboundAuth := some key }

/-- This node has proved itself to the peer of a connection. -/
def setOutboundAuthenticated (n : Node D P R Q) (conn : Nat) : Node D P R Q :=
  n.onConnection conn fun c => { c with outboundAuth := true }

/-- Close a connection; who was authenticated on it stays written there. -/
def close (n : Node D P R Q) (conn : Nat) : Node D P R Q :=
  n.onConnection conn fun c => { c with closed := true }

section Connections

variable {n : Node D P R Q} {conn : Nat} {key : Key D}

/-- A change that leaves the authenticated peer alone is not seen. -/
theorem inboundSender_onConnection {f : Connection D → Connection D}
    (hf : ∀ c, (f c).inboundAuth = c.inboundAuth) (c : Nat) :
    (n.onConnection conn f).inboundSender c = n.inboundSender c := by
  simp only [inboundSender, onConnection, List.getElem?_modify]
  cases n.connections[c]? with
  | none => rfl
  | some connection =>
    simp only [Option.bind_some]
    split
    · exact hf connection
    · rfl

/-- Closing a connection does not change who its peer is. -/
@[simp] theorem inboundSender_close (c : Nat) :
    (n.close conn).inboundSender c = n.inboundSender c := by
  apply inboundSender_onConnection
  exact fun _ => rfl

/-- Neither does proving this node to the peer. -/
@[simp] theorem inboundSender_setOutboundAuthenticated (c : Nat) :
    (n.setOutboundAuthenticated conn).inboundSender c = n.inboundSender c := by
  apply inboundSender_onConnection
  exact fun _ => rfl

/-- Writing a key changes one connection. -/
theorem inboundSender_setInboundPeer {c : Nat} {written : Key D}
    (h : (n.setInboundPeer conn written).inboundSender c = some key) :
    n.inboundSender c = some key ∨ c = conn ∧ key = written := by
  simp only [inboundSender, setInboundPeer, onConnection, List.getElem?_modify] at h ⊢
  cases hc : n.connections[c]? with
  | none => simp [hc] at h
  | some connection =>
    rw [hc] at h
    simp only [Option.bind_some] at h ⊢
    split at h
    · rename_i heq
      exact Or.inr ⟨heq.symm, (Option.some.inj h).symm⟩
    · exact Or.inl h

/-- A new connection has no authenticated peer. -/
theorem inboundSender_connect {addr : SocketAddr} {c : Nat}
    (h : ((n.connections ++ [Connection.new addr])[c]?).bind (·.inboundAuth) = some key) :
    n.inboundSender c = some key := by
  rw [List.getElem?_append] at h
  split at h
  · exact h
  · obtain ⟨connection, hc, hauth⟩ := Option.bind_eq_some_iff.mp h
    rw [List.mem_singleton.mp (List.mem_of_getElem? hc)] at hauth
    exact absurd hauth (by simp [Connection.new])

/-- A new connection leads to the address it was made for. -/
theorem remote_connect {addr : SocketAddr} :
    ((n.connections ++ [Connection.new addr])[n.connections.length]?).map (·.remote) =
      some addr := by
  rw [List.getElem?_concat_length]
  rfl

/-- The connections that were there keep their remote addresses. -/
theorem remote_of_connect {addr other : SocketAddr} {c : Nat} (h : n.remote c = some other) :
    ((n.connections ++ [Connection.new addr])[c]?).map (·.remote) = some other := by
  obtain ⟨connection, hc, hr⟩ := Option.map_eq_some_iff.mp h
  have hlt := (List.getElem?_eq_some_iff.mp hc).1
  rw [List.getElem?_append_left hlt, hc, Option.map_some, hr]

/-- No change of a connection moves its remote address. -/
theorem remote_onConnection {f : Connection D → Connection D}
    (hf : ∀ c, (f c).remote = c.remote) (c : Nat) :
    (n.onConnection conn f).remote c = n.remote c := by
  simp only [remote, onConnection, List.getElem?_modify]
  cases n.connections[c]? with
  | none => rfl
  | some connection =>
    simp only [Option.map_some]
    split
    · exact congrArg some (hf connection)
    · rfl

/-- Closing a connection keeps its remote address. -/
@[simp] theorem remote_close (c : Nat) : (n.close conn).remote c = n.remote c := by
  apply remote_onConnection
  exact fun _ => rfl

/-- So does proving this node to the peer. -/
@[simp] theorem remote_setOutboundAuthenticated (c : Nat) :
    (n.setOutboundAuthenticated conn).remote c = n.remote c := by
  apply remote_onConnection
  exact fun _ => rfl

/-- So does writing a key. -/
@[simp] theorem remote_setInboundPeer (c : Nat) :
    (n.setInboundPeer conn key).remote c = n.remote c := by
  apply remote_onConnection
  exact fun _ => rfl

end Connections

/-- Put a packet on the wire. -/
def send (n : Node D P R Q) (addr : SocketAddr) (packet : DhtPacket D R Q) : Node D P R Q :=
  { n with sent := n.sent ++ [(addr, packet)] }

/-- Register a call under a new identifier. -/
def register (n : Node D P R Q) : Node D P R Q :=
  { n with
    nextId := (n.nextId + 1) % 2 ^ 64
    pending := n.nextId :: n.pending
    answers := Function.update n.answers n.nextId none }

/-- Give up a call. -/
def giveUp (n : Node D P R Q) (id : RequestId) : Node D P R Q :=
  { n with pending := n.pending.erase id }

/-- Hand a response to the call that waits under its identifier; a stale one is dropped. -/
def dispatch (n : Node D P R Q) (src : SocketAddr) (id : RequestId) (payload : DhtResponse D) :
    Node D P R Q :=
  if id ∈ n.pending then
    { n with
      pending := n.pending.erase id
      answers := Function.update n.answers id (some (src, payload)) }
  else n

/-- A response changes no connection. -/
@[simp] theorem inboundSender_dispatch (n : Node D P R Q) (src : SocketAddr) (id : RequestId)
    (payload : DhtResponse D) (c : Nat) :
    (n.dispatch src id payload).inboundSender c = n.inboundSender c := by
  unfold dispatch
  split <;> rfl

/-- Write the key of a peer into its connection, and take a note of it. -/
def setInboundAuth (n : Node D P R Q) (entry : Authenticated D) : Node D P R Q :=
  { n.setInboundPeer entry.conn entry.key with history := n.history ++ [entry] }

/-- The challenge for a public key at an address. -/
def challange (host : Host D P S R) (n : Node D P R Q) (pubKey : Bytes) (ip : IpAddr) :
    Option UInt32 :=
  calculateChallenge host.crypto pubKey ip n.salt

/-- The node's own token while it is in force. -/
def bestToken (n : Node D P R Q) : Option (Token D) := n.token.filter fun t => !t.isExpired n.now

/-- Answer with a challenge. -/
def answer (src : SocketAddr) (conn : Nat) (id : RequestId) (response : UInt32 → DhtResponse D) :
    Option UInt32 → Task D R Q
  | none => .finished (.error .panic)
  | some challange => .replying src conn id (response challange) none

/-- What follows the welcome of a bootstrap node that is not trusted. -/
def retry (bootstrap : SocketAddr) (attempt : Nat) : Task D R Q :=
  if attempt + 1 < 2 then .joining bootstrap (attempt + 1)
  else .finished (.error (.auth .roguePeer))

/-- The task of a call: register it, connect and send the request on the connection that is then
registered for the address. -/
def call (n : Node D P R Q) (o : Outcome) (addr : SocketAddr) (request : DhtRequest D R)
    (wait : RequestId → Task D R Q) : Node D P R Q × Task D R Q :=
  if o.ok && (n.table addr).isSome then
    (n.register.send addr (.handShake n.nextId request), wait n.nextId)
  else (n.register, .finished (.error .rpc))

/-- The task of a call that waits: a response that has come, or the end of its time. -/
def await (n : Node D P R Q) (o : Outcome) (id : RequestId)
    (next : SocketAddr → DhtResponse D → Node D P R Q × Task D R Q) :
    Option (Node D P R Q × Task D R Q) :=
  if o.ok then (n.answers id).map fun answer => next answer.1 answer.2
  else some (n.giveUp id, .finished (.error .rpc))

/-- Handle a packet whose connection has been looked up. Responses are dispatched before. -/
def handlePacket (host : Host D P S R) (n : Node D P R Q) (src : SocketAddr) (conn : Nat) :
    DhtPacket D R Q → Task D R Q
  | .request id payload =>
      match n.inboundSender conn with
      | none => .finished (.error (.auth .invalidToken))
      | some sender => .requested src conn sender id payload
  | .handShake id (.requestChallange senderId) =>
      answer src conn id (.challange · difficulty) (n.challange host senderId.pubKey src.ip)
  | .handShake id (.requestHandshake senderId) =>
      answer src conn id .handshakeChallange (n.challange host senderId.pubKey src.ip)
  | .handShake id (.submitHandshake token signature) =>
      match n.challange host (token.sender host.crypto).pubKey src.ip with
      | none => .finished (.error .panic)
      | some challange => .challenged src conn id token signature challange
  | .handShake id (.submitChallange senderId value nonce signature report _) =>
      match n.challange host senderId.pubKey src.ip with
      | none => .finished (.error .panic)
      | some challange =>
          .submitted src conn id senderId
            ⟨value, challange, nonce, some signature, report, difficulty⟩
  | .response _ _ => .finished (.error .panic)

variable [DecidableEq D]

/-- One step of a task that handles a packet. -/
def stepServer (host : Host D P S R) (n : Node D P R Q) (o : Outcome) :
    Task D R Q → Option (Node D P R Q × Task D R Q)
  | .arrived src packet =>
      match n.table src with
      | none => some (n, .finished (.error .unknownConnection))
      | some conn => some (n, .found src conn packet)
  | .found src _ (.response id payload) => some (n.dispatch src id payload, .finished (.ok ()))
  | .found src conn packet => some (n, n.handlePacket host src conn packet)
  | .requested src conn sender id payload =>
      let checked := n.limiter.check sender n.now
      if checked.2 then some ({ n with limiter := checked.1 }, .handling src conn sender id payload)
      else some ({ n with limiter := checked.1 }, .finished (.error (.auth .rateLimited)))
  | .challenged src conn id token signature challange =>
      if !token.verify host.crypto n.now || !token.verifyPgp host.crypto n.pgpKeys then
        some (n.close conn, .finished (.error (.auth .invalidToken)))
      else
        let tokenBytes := host.crypto.bytes (token.hash host.crypto) ++ be32 challange
        if !host.crypto.verify (token.sender host.crypto).pubKey tokenBytes signature then
          some (n.close conn, .finished (.error (.auth .roguePeer)))
        else
          some (n, .replying src conn id (.pong host.key)
            (some (token, .ownership token signature challange)))
  | .submitted src conn id senderId secret =>
      match issueToken host.crypto host.identity host.verifyReport o.manifest n.now
          senderId.pubKey secret with
      | none => some (n, .finished (.error .panic))
      | some (.error e) => some (n, .finished (.error (.auth e)))
      | some (.ok token) =>
          some (n, .replying src conn id (.welcome token)
            (some (token, .work senderId secret.value secret.nonce (secret.signature.getD []))))
  | .replying src conn id response grant =>
      if o.ok then
        match grant with
        | none => some (n.send src (.response id response), .finished (.ok ()))
        | some (token, proof) =>
            some (n.send src (.response id response), .replied src conn token proof)
      else some (n, .finished (.error .rpc))
  | .replied src conn token proof =>
      some (n.setInboundAuth ⟨conn, src, token.sender host.crypto, proof⟩, .finished (.ok ()))
  | _ => none

/-- One step of a task that joins the network. -/
def stepJoin (host : Host D P S R) (n : Node D P R Q) (o : Outcome) :
    Task D R Q → Option (Node D P R Q × Task D R Q)
  | .joining bootstrap attempt =>
      some (n.call o bootstrap (.requestChallange host.key) (.awaitingChallange bootstrap attempt))
  | .awaitingChallange bootstrap attempt id =>
      n.await o id fun _ response =>
        match response with
        | .challange challange difficulty => (n, .proving bootstrap attempt challange difficulty)
        | _ => (n, .finished (.error .unexpectedResponse))
  | .proving bootstrap attempt challange difficulty =>
      let value := PoW.calculate host.crypto host.identity.pubKey challange o.nonce
      match PoW.validate (host.crypto.bytes value) difficulty with
      | none => some (n, .finished (.error .panic))
      | some false => none
      | some true =>
          match host.identity.signer (host.crypto.bytes value) with
          | none => some (n, .finished (.error (.auth .powSignFailed)))
          | some signature =>
              some (n, .solved bootstrap attempt
                ⟨value, challange, o.nonce, some signature, none, difficulty⟩)
  | .solved bootstrap attempt secret =>
      match secret.signature with
      | none => some (n, .finished (.error (.auth .unAuthorized)))
      | some signature =>
          some (n.call o bootstrap (.submitChallange host.key secret.value secret.nonce signature
            secret.attestation host.version) (.awaitingWelcome bootstrap attempt))
  | .awaitingWelcome bootstrap attempt id =>
      n.await o id fun source response =>
        match response with
        | .welcome token => (n, .welcomed bootstrap attempt id source token)
        | _ => (n, .finished (.error .unexpectedResponse))
  | .welcomed bootstrap attempt _ _ token =>
      if !token.verifyFor host.crypto host.key.pubKey n.now ||
          !token.verifyPgp host.crypto n.pgpKeys then some (n, retry bootstrap attempt)
      else some (n, .trusted bootstrap token)
  | .trusted bootstrap token =>
      match n.table bootstrap with
      | none => some (n, .storing token)
      | some conn => some (n.setOutboundAuthenticated conn, .binding bootstrap conn token)
  | .binding bootstrap conn token =>
      some (n.setInboundAuth ⟨conn, bootstrap, Key.new host.crypto token.issuer, .welcome token⟩,
        .storing token)
  | .storing token => some ({ n with token := some token }, .finished (.ok ()))
  | _ => none

/-- One step of a task that authenticates this node to a target. -/
def stepAuthenticate (host : Host D P S R) (n : Node D P R Q) (o : Outcome) :
    Task D R Q → Option (Node D P R Q × Task D R Q)
  | .authenticating target addr =>
      match n.bestToken with
      | none => some (n, .finished (.error (.auth .unAuthorized)))
      | some token => some (n, .greeting target addr token)
  | .greeting target addr token =>
      some (n.call o addr (.requestHandshake host.key) (.awaitingNonce target addr token))
  | .awaitingNonce target addr token id =>
      n.await o id fun _ response =>
        match response with
        | .handshakeChallange nonce => (n, .signing target addr token nonce)
        | _ => (n, .finished (.error (.auth .unAuthorized)))
  | .signing target addr token nonce =>
      match host.identity.signer (host.crypto.bytes (token.hash host.crypto) ++ be32 nonce) with
      | none => some (n, .finished (.error (.auth .invalidToken)))
      | some signature => some (n, .presenting target addr token signature)
  | .presenting target addr token signature =>
      some (n.call o addr (.submitHandshake token signature) (.awaitingPong target addr))
  | .awaitingPong target addr id =>
      n.await o id fun _ response =>
        match response with
        | .pong receiverId =>
            if receiverId ≠ target then (n, .finished (.error (.auth .roguePeer)))
            else
              match n.table addr with
              | none => (n, .finished (.ok ()))
              | some conn => (n.setOutboundAuthenticated conn, .finished (.ok ()))
        | _ => (n, .finished (.error (.auth .unAuthorized)))
  | _ => none

/-- One step of a task. -/
def stepTask (host : Host D P S R) (n : Node D P R Q) (o : Outcome) (task : Task D R Q) :
    Option (Node D P R Q × Task D R Q) :=
  n.stepServer host o task <|> n.stepJoin host o task <|> n.stepAuthenticate host o task

/-- One step. -/
def step (host : Host D P S R) (n : Node D P R Q) : Label D P R Q → Option (Node D P R Q)
  | .packet src packet => some { n with tasks := n.tasks ++ [.arrived src packet] }
  | .join bootstrap => some { n with tasks := n.tasks ++ [.joining bootstrap 0] }
  | .authenticate target addr => some { n with tasks := n.tasks ++ [.authenticating target addr] }
  | .advance k outcome => (n.tasks[k]?).bind fun task =>
      (n.stepTask host outcome task).map fun out =>
        { out.1 with tasks := n.tasks.set k out.2 }
  | .clock now => some { n with now := now }
  | .renewSalt salt => some { n with salt := salt }
  | .loadKeys pgpKeys => some { n with pgpKeys := pgpKeys }
  | .connect addr => some { n with
      connections := n.connections ++ [.new addr]
      table := Function.update n.table addr (some n.connections.length) }
  | .disconnect addr => some { n with table := Function.update n.table addr none }

end Node

end Bqti.Dht
