import Bqti.Dht.Gate

/-!
# Service on authenticated connections

The messages of a peer are served by what its connection remembers: the key that the peer has
proved, or the mark that this node has proved itself to the peer. The tokens behind both are
looked at once, when they are accepted. This module runs a node together with the messages of
the peer exchange and of the torrents, follows the tokens in a record that nothing reads, and
says when no message is served under a token that has expired or that was issued to a platform
that was judged to be rejected.
-/

namespace Bqti.Dht

open Bqti.Core

variable {D P S R Q : Type*}

/-! ## Tokens behind connections -/

/-- What authenticated a connection: a token of the peer, or one that this node holds. -/
inductive Auth (D : Type*)
  | peer (token : Token D)
  | own (token : Token D)
  deriving DecidableEq

namespace Auth

/-- The token of either kind. -/
def token : Auth D → Token D
  | .peer token => token
  | .own token => token

/-- The peer's attestation was not rejected by the issuer of its token. -/
def NotRejected : Auth D → Prop
  | .peer token => token.trustLevel ≠ .rejected
  | .own _ => True

/-- The token is in force, and was not issued to a rejected peer. -/
def Valid (auth : Auth D) (now : UInt64) : Prop :=
  auth.token.isExpired now = false ∧ auth.NotRejected

instance (auth : Auth D) : Decidable auth.NotRejected :=
  match auth with
  | .peer token => inferInstanceAs (Decidable (token.trustLevel ≠ .rejected))
  | .own _ => inferInstanceAs (Decidable True)

instance (auth : Auth D) (now : UInt64) : Decidable (auth.Valid now) :=
  inferInstanceAs (Decidable (_ ∧ _))

end Auth

/-- The connection that a task is about to serve a request on. -/
def Task.serving : Task D R Q → Option Nat
  | .found _ conn _ => some conn
  | .requested _ conn _ _ _ => some conn
  | _ => none

namespace Node

/-- This node has proved itself to the peer of a connection. -/
def outboundAuthenticated (n : Node D P R Q) (conn : Nat) : Bool :=
  (n.connections[conn]?).any (·.outboundAuth)

/-- Either side of a connection has proved itself. -/
def authenticated (n : Node D P R Q) (conn : Nat) : Bool :=
  (n.inboundSender conn).isSome || n.outboundAuthenticated conn

variable [DecidableEq D]

/-- The connection on which a task is about to mark that this node has proved itself. -/
def marked (n : Node D P R Q) (o : Outcome) : Task D R Q → Option Nat
  | .trusted bootstrap _ => n.table bootstrap
  | .awaitingPong target addr id =>
      if o.ok then
        match n.answers id with
        | some (_, .pong receiverId) => if receiverId ≠ target then none else n.table addr
        | _ => none
      else none
  | _ => none

end Node

/-! ## The node and its messages -/

/-- What messages besides those of the DHT belong to. -/
inductive Channel
  | pex
  | standard
  deriving DecidableEq, Repr

/-- Where the task of a message stands. -/
inductive PeerMessage
  | arrived (src : SocketAddr) (channel : Channel)
  | found (conn : Nat) (channel : Channel)
  | done
  deriving DecidableEq, Repr

/-- The connection that a message is about to be served on. -/
def PeerMessage.serving : PeerMessage → Option Nat
  | .found conn _ => some conn
  | _ => none

/-- What is served. -/
inductive Kind
  | request
  | message (channel : Channel)
  deriving DecidableEq, Repr

/-- A message that was served: when, on which connection, and what had authenticated it. -/
structure Served (D : Type*) where
  kind : Kind
  conn : Nat
  now : UInt64
  auth : Option (Auth D)
  deriving DecidableEq

/-- A token that is about to authenticate a connection, for the peer or for this node. -/
structure Grant (D : Type*) where
  conn : Nat
  auth : Auth D
  inbound : Bool
  deriving DecidableEq

/-- A node and its messages. The other fields are a record: the tokens that have authenticated
the connections in either direction last, the tokens that tasks have presented, and what was
served, oldest first. -/
structure Service (D P R Q : Type*) where
  node : Node D P R Q
  messages : List PeerMessage
  inbound : Nat → Option (Auth D)
  outbound : Nat → Option (Auth D)
  presented : Nat → Option (Token D)
  served : List (Served D)

/-- A step of the node, the arrival of a message, or a step of the task of one. -/
inductive ServiceLabel (D P R Q : Type*)
  | node (label : Label D P R Q)
  | message (src : SocketAddr) (channel : Channel)
  | forward (k : Nat)

namespace Service

/-- A node that has just started. -/
def start (salt : Bytes) : Service D P R Q :=
  ⟨.start salt, [], fun _ => none, fun _ => none, fun _ => none, []⟩

/-- The token that authenticated a connection: the one for the peer if the peer has proved
itself, otherwise the one of this node. -/
def auth (s : Service D P R Q) (conn : Nat) : Option (Auth D) :=
  (s.inbound conn).or (s.outbound conn)

/-- The token that a task uses for this node. -/
def ownToken (s : Service D P R Q) (k : Nat) : Task D R Q → Option (Token D)
  | .trusted _ token => some token
  | .awaitingPong _ _ _ => s.presented k
  | _ => none

/-- Record a token. -/
def grant (s : Service D P R Q) : Option (Grant D) → Service D P R Q
  | none => s
  | some g =>
      if g.inbound then { s with inbound := Function.update s.inbound g.conn (some g.auth) }
      else { s with outbound := Function.update s.outbound g.conn (some g.auth) }

section Step

variable [DecidableEq D]

/-- The token that a task is about to authenticate a connection with. -/
def granted (s : Service D P R Q) (k : Nat) (o : Outcome) : Option (Grant D) :=
  match s.node.tasks[k]? with
  | none => none
  | some (.replied _ conn token _) => some ⟨conn, .peer token, true⟩
  | some (.binding _ conn token) => some ⟨conn, .own token, true⟩
  | some task =>
      (s.node.marked o task).bind fun conn =>
        (s.ownToken k task).map fun token => ⟨conn, .own token, false⟩

/-- The tokens that tasks have presented once a task has advanced. -/
def presentedBy (s : Service D P R Q) (k : Nat) : Nat → Option (Token D) :=
  match s.node.tasks[k]? with
  | some (.presenting _ _ token _) => Function.update s.presented k (some token)
  | _ => s.presented

/-- The request that a task is about to serve: one that the limiter lets through. -/
def servedBy (s : Service D P R Q) (k : Nat) : List (Served D) :=
  match s.node.tasks[k]? with
  | some (.requested _ conn sender _ _) =>
      if (s.node.limiter.check sender s.node.now).2 then
        [⟨.request, conn, s.node.now, s.auth conn⟩]
      else []
  | _ => []

/-- One step of the task of a message: look up its connection, then serve it if the connection
is authenticated in some direction. -/
def stepMessage (s : Service D P R Q) (k : Nat) : PeerMessage → Option (Service D P R Q)
  | .arrived src channel =>
      match s.node.table src with
      | none => some { s with messages := s.messages.set k .done }
      | some conn => some { s with messages := s.messages.set k (.found conn channel) }
  | .found conn channel =>
      if s.node.authenticated conn then
        some { s with
          messages := s.messages.set k .done
          served := s.served ++ [⟨.message channel, conn, s.node.now, s.auth conn⟩] }
      else some { s with messages := s.messages.set k .done }
  | .done => none

/-- One step. A connection that is made has no tokens. -/
def step (host : Host D P S R) (s : Service D P R Q) :
    ServiceLabel D P R Q → Option (Service D P R Q)
  | .node (.advance k o) =>
      (s.node.step host (.advance k o)).map fun n =>
        { s.grant (s.granted k o) with
          node := n
          presented := s.presentedBy k
          served := s.served ++ s.servedBy k }
  | .node (.connect addr) =>
      (s.node.step host (.connect addr)).map fun n =>
        { s with
          node := n
          inbound := Function.update s.inbound s.node.connections.length none
          outbound := Function.update s.outbound s.node.connections.length none }
  | .node label => (s.node.step host label).map fun n => { s with node := n }
  | .message src channel => some { s with messages := s.messages ++ [.arrived src channel] }
  | .forward k => (s.messages[k]?).bind fun message => s.stepMessage k message

end Step

end Service

/-! ## The specification -/

/-- A message was served under a token that was in force and not issued to a rejected peer. -/
def Served.Proper (m : Served D) : Prop := ∃ a, m.auth = some a ∧ a.Valid m.now

instance (m : Served D) : Decidable m.Proper :=
  match h : m.auth with
  | none => .isFalse fun ⟨_, ha, _⟩ => Option.some_ne_none _ (ha.symm.trans h)
  | some a => decidable_of_iff (a.Valid m.now)
      ⟨fun hv => ⟨a, h, hv⟩, fun ⟨_, hb, hv⟩ => Option.some.inj (h.symm.trans hb) ▸ hv⟩

namespace Service

/-- Messages are served on a connection, or may soon be: it is registered, or looked up by a task
that has not served its message yet. -/
def InUse (s : Service D P R Q) (conn : Nat) : Prop :=
  (∃ addr, s.node.table addr = some conn) ∨ (∃ task ∈ s.node.tasks, task.serving = some conn) ∨
    ∃ m ∈ s.messages, m.serving = some conn

/-- Connections are authenticated with valid tokens only, and the clock does not pass the end of
a token while its connection is in use. -/
def Careful [DecidableEq D] (s : Service D P R Q) : ServiceLabel D P R Q → Prop
  | .node (.advance k o) => ∀ g, s.granted k o = some g → g.auth.Valid s.node.now
  | .node (.clock now) =>
      ∀ conn, s.InUse conn → ∀ a, s.auth conn = some a → a.token.isExpired now = false
  | _ => True

end Service

/-! ## What marks a connection -/

namespace Node

variable {host : Host D P S R} {n n' : Node D P R Q} {o : Outcome} {task task' : Task D R Q}
  {conn c : Nat}

/-- Whether a connection is authenticated depends on the connections only. -/
theorem outboundAuthenticated_congr (h : n'.connections = n.connections) (c : Nat) :
    n'.outboundAuthenticated c = n.outboundAuthenticated c := by
  rw [outboundAuthenticated, outboundAuthenticated, h]

/-- A change that leaves the mark alone is not seen. -/
theorem outboundAuthenticated_onConnection {f : Connection D → Connection D}
    (hf : ∀ c, (f c).outboundAuth = c.outboundAuth) (c : Nat) :
    (n.onConnection conn f).outboundAuthenticated c = n.outboundAuthenticated c := by
  simp only [outboundAuthenticated, onConnection, List.getElem?_modify]
  cases n.connections[c]? with
  | none => rfl
  | some connection =>
    simp only [Option.any_some]
    split
    · exact hf connection
    · rfl

@[simp] theorem outboundAuthenticated_close (c : Nat) :
    (n.close conn).outboundAuthenticated c = n.outboundAuthenticated c := by
  apply outboundAuthenticated_onConnection
  exact fun _ => rfl

@[simp] theorem outboundAuthenticated_setInboundAuth (entry : Authenticated D) (c : Nat) :
    (n.setInboundAuth entry).outboundAuthenticated c = n.outboundAuthenticated c := by
  refine (outboundAuthenticated_congr (n := n.setInboundPeer entry.conn entry.key) rfl c).trans ?_
  apply outboundAuthenticated_onConnection
  exact fun _ => rfl

/-- Marking a connection marks that one. -/
theorem outboundAuthenticated_setOutboundAuthenticated
    (h : (n.setOutboundAuthenticated conn).outboundAuthenticated c = true) :
    n.outboundAuthenticated c = true ∨ c = conn := by
  simp only [outboundAuthenticated, setOutboundAuthenticated, onConnection,
    List.getElem?_modify] at h ⊢
  cases hc : n.connections[c]? with
  | none => simp [hc] at h
  | some connection =>
    rw [hc] at h
    simp only [Option.any_some] at h ⊢
    split at h
    · rename_i heq
      exact .inr heq.symm
    · exact .inl h

/-- A new connection is not marked. -/
theorem outboundAuthenticated_connect {addr : SocketAddr}
    (h : ((n.connections ++ [Connection.new addr])[c]?).any (·.outboundAuth) = true) :
    n.outboundAuthenticated c = true ∧ c ≠ n.connections.length := by
  rw [List.getElem?_append] at h
  split at h
  · rename_i hlt
    exact ⟨h, Nat.ne_of_lt hlt⟩
  · obtain ⟨connection, hc, hauth⟩ := (Option.any_eq_true _ _).mp h
    rw [List.mem_singleton.mp (List.mem_of_getElem? hc)] at hauth
    cases hauth

/-- A call touches no connection. -/
theorem call_connections {addr : SocketAddr} {request : DhtRequest D R}
    {wait : RequestId → Task D R Q} (h : some (n.call o addr request wait) = some (n', task')) :
    n'.connections = n.connections := by
  have he := Option.some.inj h
  unfold call at he
  split at he <;> cases he <;> rfl

/-- A task that waits for a response does with the connections what it does with the response. -/
theorem await_outbound {id : RequestId}
    {next : SocketAddr → DhtResponse D → Node D P R Q × Task D R Q}
    (h : n.await o id next = some (n', task')) (hc : n'.outboundAuthenticated c = true) :
    n.outboundAuthenticated c = true ∨ o.ok = true ∧ ∃ source response,
      n.answers id = some (source, response) ∧
        (next source response).1.outboundAuthenticated c = true := by
  unfold await at h
  split at h
  · rename_i hok
    obtain ⟨⟨source, response⟩, ha, he⟩ := Option.map_eq_some_iff.mp h
    refine .inr ⟨hok, source, response, ha, ?_⟩
    rw [he]
    exact hc
  · cases h
    exact .inl hc

variable [DecidableEq D]

/-- Tasks that handle packets mark nothing. -/
theorem stepServer_outbound (h : n.stepServer host o task = some (n', task')) (c : Nat) :
    n'.outboundAuthenticated c = n.outboundAuthenticated c := by
  cases task with
  | arrived src packet =>
    simp only [stepServer] at h
    split at h <;> cases h <;> rfl
  | found src conn packet =>
    cases packet with
    | response id payload =>
      cases h
      unfold dispatch
      split <;> rfl
    | request | handShake =>
      cases h
      rfl
  | requested src conn sender id payload =>
    simp only [stepServer] at h
    split at h <;> cases h <;> rfl
  | challenged src conn id token signature challange =>
    simp only [stepServer] at h
    split at h
    · cases h
      exact outboundAuthenticated_close c
    · split at h
      · cases h
        exact outboundAuthenticated_close c
      · cases h
        rfl
  | submitted src conn id senderId secret =>
    simp only [stepServer] at h
    split at h <;> cases h <;> rfl
  | replying src conn id response grant =>
    simp only [stepServer] at h
    split at h
    · cases grant <;> cases h <;> rfl
    · cases h
      rfl
  | replied src conn token proof =>
    cases h
    exact outboundAuthenticated_setInboundAuth _ c
  | _ => exact absurd h (by simp [stepServer])

/-- A task that joins the network marks the connection to its bootstrap node. -/
theorem stepJoin_outbound (h : n.stepJoin host o task = some (n', task'))
    (hc : n'.outboundAuthenticated c = true) :
    n.outboundAuthenticated c = true ∨ n.marked o task = some c := by
  cases task with
  | joining bootstrap attempt =>
    rw [outboundAuthenticated_congr (call_connections h)] at hc
    exact .inl hc
  | awaitingChallange bootstrap attempt id =>
    simp only [stepJoin] at h
    rcases await_outbound h hc with hold | ⟨-, source, response, -, hnext⟩
    · exact .inl hold
    · split at hnext <;> exact .inl hnext
  | proving bootstrap attempt challange difficulty =>
    simp only [stepJoin] at h
    split at h
    · cases h
      exact .inl hc
    · cases h
    · split at h <;> cases h <;> exact .inl hc
  | solved bootstrap attempt secret =>
    simp only [stepJoin] at h
    split at h
    · cases h
      exact .inl hc
    · rw [outboundAuthenticated_congr (call_connections h)] at hc
      exact .inl hc
  | awaitingWelcome bootstrap attempt id =>
    simp only [stepJoin] at h
    rcases await_outbound h hc with hold | ⟨-, source, response, -, hnext⟩
    · exact .inl hold
    · split at hnext <;> exact .inl hnext
  | welcomed bootstrap attempt id source token =>
    simp only [stepJoin] at h
    split at h <;> cases h <;> exact .inl hc
  | trusted bootstrap token =>
    simp only [stepJoin] at h
    split at h
    · cases h
      exact .inl hc
    · rename_i conn htable
      cases h
      rcases outboundAuthenticated_setOutboundAuthenticated hc with hold | rfl
      · exact .inl hold
      · exact .inr htable
  | binding bootstrap conn token =>
    cases h
    rw [outboundAuthenticated_setInboundAuth] at hc
    exact .inl hc
  | storing token =>
    cases h
    exact .inl hc
  | _ => exact absurd h (by simp [stepJoin])

/-- A task that authenticates this node marks the connection to its target. -/
theorem stepAuthenticate_outbound (h : n.stepAuthenticate host o task = some (n', task'))
    (hc : n'.outboundAuthenticated c = true) :
    n.outboundAuthenticated c = true ∨ n.marked o task = some c := by
  cases task with
  | authenticating target addr =>
    simp only [stepAuthenticate] at h
    split at h <;> cases h <;> exact .inl hc
  | greeting target addr token =>
    rw [outboundAuthenticated_congr (call_connections h)] at hc
    exact .inl hc
  | awaitingNonce target addr token id =>
    simp only [stepAuthenticate] at h
    rcases await_outbound h hc with hold | ⟨-, source, response, -, hnext⟩
    · exact .inl hold
    · split at hnext <;> exact .inl hnext
  | signing target addr token nonce =>
    simp only [stepAuthenticate] at h
    split at h <;> cases h <;> exact .inl hc
  | presenting target addr token signature =>
    rw [outboundAuthenticated_congr (call_connections h)] at hc
    exact .inl hc
  | awaitingPong target addr id =>
    simp only [stepAuthenticate] at h
    rcases await_outbound h hc with hold | ⟨hok, source, response, hanswer, hnext⟩
    · exact .inl hold
    · split at hnext
      · rename_i receiverId
        split at hnext
        · exact .inl hnext
        · rename_i hsame
          split at hnext
          · exact .inl hnext
          · rename_i conn htable
            rcases outboundAuthenticated_setOutboundAuthenticated hnext with hold | rfl
            · exact .inl hold
            · right
              simp only [marked, hok, if_true, hanswer, if_neg hsame]
              exact htable
      · exact .inl hnext
  | _ => exact absurd h (by simp [stepAuthenticate])

/-- A task marks a connection only when it is about to. -/
theorem stepTask_outbound (h : n.stepTask host o task = some (n', task'))
    (hc : n'.outboundAuthenticated c = true) :
    n.outboundAuthenticated c = true ∨ n.marked o task = some c := by
  simp only [stepTask, Option.orElse_eq_orElse, Option.orElse_eq_or, Option.or_eq_some_iff] at h
  rcases h with hs | ⟨-, hj | ⟨-, ha⟩⟩
  · exact .inl ((stepServer_outbound hs c).symm.trans hc)
  · exact stepJoin_outbound hj hc
  · exact stepAuthenticate_outbound ha hc

/-! ## What a move keeps -/

/-- A move does not set the clock. -/
theorem Moves.now (h : Moves host n task n' task') : n'.now = n.now := by
  cases h with
  | dispatched =>
    unfold dispatch
    split <;> rfl
  | _ => rfl

/-- A task comes to serve a connection through the table. -/
theorem Moves.serving (h : Moves host n task n' task') (hserving : task'.serving = some c) :
    task.serving = some c ∨ ∃ addr, n.table addr = some c := by
  cases h with
  | @lookedUp src conn packet table =>
    obtain rfl : conn = c := Option.some.inj hserving
    exact .inr ⟨src, table⟩
  | requested auth => exact .inl hserving
  | _ => cases hserving

/-- A request waits for the limiter only in the name of a key. -/
theorem Moves.sender {src : SocketAddr} {sender : Key D} {id : RequestId} {payload : Q}
    (h : Moves host n task n' (.requested src conn sender id payload)) :
    n.inboundSender conn = some sender := by
  cases h with
  | requested auth => exact auth

/-- A task waits for the answer to a token that it has presented. -/
theorem Moves.presenting {target : Key D} {addr : SocketAddr} {id : RequestId}
    (h : Moves host n task n' (.awaitingPong target addr id)) :
    ∃ token signature, task = .presenting target addr token signature := by
  cases h with
  | presented => exact ⟨_, _, rfl⟩

omit [DecidableEq D] in
/-- A connection that had a sender has one when another peer is set. -/
theorem isSome_inboundSender_setInboundPeer {key : Key D} (h : (n.inboundSender c).isSome = true) :
    ((n.setInboundPeer conn key).inboundSender c).isSome = true := by
  simp only [inboundSender, setInboundPeer, onConnection, List.getElem?_modify] at h ⊢
  cases hc : n.connections[c]? with
  | none => simp [hc] at h
  | some connection =>
    rw [hc] at h
    simp only [Option.bind_some] at h ⊢
    split
    · rfl
    · exact h

/-- No move takes back a key. -/
theorem Moves.isSome_inboundSender (h : Moves host n task n' task')
    (hc : (n.inboundSender c).isSome = true) : (n'.inboundSender c).isSome = true := by
  cases h with
  | granted | bound => exact isSome_inboundSender_setInboundPeer hc
  | closed | outbound | binding | dispatched => simpa using hc
  | _ => exact hc

end Node

namespace Service

variable {host : Host D P S R} {s s' : Service D P R Q} {o : Outcome} {k conn c : Nat}
  {task : Task D R Q}

/-! ## The record -/

@[simp] theorem grant_messages (g : Option (Grant D)) : (s.grant g).messages = s.messages := by
  cases g with
  | none => rfl
  | some g =>
    rw [grant]
    split <;> rfl

/-- A token behind a connection was there before or has just been granted. -/
theorem auth_grant {g : Option (Grant D)} {a : Auth D} (h : (s.grant g).auth c = some a) :
    s.auth c = some a ∨ ∃ g', g = some g' ∧ g'.auth = a := by
  cases g with
  | none => exact .inl h
  | some g =>
    rw [grant] at h
    split at h
    · simp only [auth, Function.update_apply] at h
      split at h
      · rw [Option.some_or] at h
        exact .inr ⟨g, rfl, Option.some.inj h⟩
      · exact .inl h
    · simp only [auth, Function.update_apply] at h
      split at h
      · rw [auth]
        cases hinbound : s.inbound c with
        | some b =>
          rw [hinbound] at h
          exact .inl h
        | none =>
          rw [hinbound, Option.none_or] at h
          exact .inr ⟨g, rfl, Option.some.inj h⟩
      · exact .inl h

/-- A grant takes no inbound authentication away. -/
theorem isSome_inbound_grant (g : Option (Grant D)) (h : (s.inbound c).isSome = true) :
    ((s.grant g).inbound c).isSome = true := by
  cases g with
  | none => exact h
  | some g =>
    rw [grant]
    split
    · simp only [Function.update_apply]
      split
      · rfl
      · exact h
    · exact h

/-- A grant takes no outbound authentication away. -/
theorem isSome_outbound_grant (g : Option (Grant D)) (h : (s.outbound c).isSome = true) :
    ((s.grant g).outbound c).isSome = true := by
  cases g with
  | none => exact h
  | some g =>
    rw [grant]
    split
    · exact h
    · simp only [Function.update_apply]
      split
      · rfl
      · exact h

variable [DecidableEq D]

/-- The token of a task that writes a key is recorded for the connection. -/
theorem inbound_of_entry {entry : Authenticated D} (htask : s.node.tasks[k]? = some task)
    (hentry : task.entry host = some entry) :
    ((s.grant (s.granted k o)).inbound entry.conn).isSome = true := by
  cases task with
  | replied src conn token proof =>
    cases hentry
    simp [granted, htask, grant]
  | binding bootstrap conn token =>
    cases hentry
    simp [granted, htask, grant]
  | _ => cases hentry

/-- So is the token of a task that marks a connection. -/
theorem outbound_of_marked (htask : s.node.tasks[k]? = some task)
    (hmarked : s.node.marked o task = some c)
    (hpresented : ∀ target addr id, task = .awaitingPong target addr id →
      (s.presented k).isSome = true) :
    ((s.grant (s.granted k o)).outbound c).isSome = true := by
  cases task with
  | trusted bootstrap token => simp [granted, htask, grant, hmarked, ownToken]
  | awaitingPong target addr id =>
    obtain ⟨token, htoken⟩ := Option.isSome_iff_exists.mp (hpresented target addr id rfl)
    simp [granted, htask, grant, hmarked, ownToken, htoken]
  | _ => cases hmarked

omit [DecidableEq D] in
/-- A task that advances presents at most one more token. -/
theorem presentedBy_cases (s : Service D P R Q) (k : Nat) :
    s.presentedBy k = s.presented ∨
      ∃ token, s.presentedBy k = Function.update s.presented k (some token) := by
  rw [presentedBy]
  split
  · exact .inr ⟨_, rfl⟩
  · exact .inl rfl

omit [DecidableEq D] in
/-- A token that was presented stays so. -/
theorem isSome_presentedBy {i : Nat} (h : (s.presented i).isSome = true) :
    (s.presentedBy k i).isSome = true := by
  rcases presentedBy_cases s k with hsame | ⟨token, hnew⟩
  · rw [hsame]
    exact h
  · rw [hnew, Function.update_apply]
    split
    · rfl
    · exact h

/-! ## Careful runs -/

/-- Every connection in use is authenticated by a valid token if it is at all, every mark has its
token, and everything was served properly. -/
structure Sound (s : Service D P R Q) : Prop where
  valid : ∀ conn, s.InUse conn → ∀ a, s.auth conn = some a → a.Valid s.node.now
  inbound : ∀ conn, (s.node.inboundSender conn).isSome = true → (s.inbound conn).isSome = true
  outbound : ∀ conn, s.node.outboundAuthenticated conn = true → (s.outbound conn).isSome = true
  presented : ∀ k target addr id, s.node.tasks[k]? = some (.awaitingPong target addr id) →
    (s.presented k).isSome = true
  requested : ∀ src conn sender id payload,
    Task.requested src conn sender id payload ∈ s.node.tasks →
      (s.node.inboundSender conn).isSome = true
  served : ∀ m ∈ s.served, m.Proper

omit [DecidableEq D] in
/-- A connection in use that is authenticated has a valid token. -/
theorem Sound.proper (hs : s.Sound) (huse : s.InUse conn)
    (hauth : s.node.authenticated conn = true) (kind : Kind) :
    (⟨kind, conn, s.node.now, s.auth conn⟩ : Served D).Proper := by
  have hsome : (s.auth conn).isSome = true := by
    rw [auth, Option.isSome_or, Bool.or_eq_true]
    exact ((Bool.or_eq_true _ _).mp hauth).imp (hs.inbound conn) (hs.outbound conn)
  obtain ⟨a, ha⟩ := Option.isSome_iff_exists.mp hsome
  exact ⟨a, ha, hs.valid conn huse a ha⟩

/-- What a task serves is served properly. -/
theorem Sound.servedBy (hs : s.Sound) : ∀ m ∈ s.servedBy k, m.Proper := by
  intro m hm
  rw [Service.servedBy] at hm
  split at hm
  · rename_i src conn sender id payload htask
    split at hm
    · obtain rfl := List.mem_singleton.mp hm
      have hmem := List.mem_of_getElem? htask
      refine hs.proper (.inr (.inl ⟨_, hmem, rfl⟩)) ?_ .request
      rw [Node.authenticated, hs.requested _ _ _ _ _ hmem, Bool.true_or]
    · cases hm
  · cases hm

/-- A careful step of a task keeps the record sound. -/
theorem Sound.advance (hs : s.Sound) {n : Node D P R Q}
    (hcareful : ∀ g, s.granted k o = some g → g.auth.Valid s.node.now)
    (hstep : s.node.step host (.advance k o) = some n) :
    Sound { s.grant (s.granted k o) with
      node := n
      presented := s.presentedBy k
      served := s.served ++ s.servedBy k } := by
  obtain ⟨task, htask, hadvance⟩ := Option.bind_eq_some_iff.mp hstep
  obtain ⟨⟨m, task'⟩, htaken, rfl⟩ := Option.map_eq_some_iff.mp hadvance
  have hmove := Node.stepTask_moves htaken
  have hmem := List.mem_of_getElem? htask
  constructor
  case valid =>
    intro conn huse a ha
    have huse : s.InUse conn := by
      rcases huse with ⟨addr, htable⟩ | ⟨other, hother, hserving⟩ | ⟨message, hmessage, hserving⟩
      · exact .inl ⟨addr, by rw [← hmove.table]; exact htable⟩
      · rcases List.mem_or_eq_of_mem_set hother with hold | rfl
        · exact .inr (.inl ⟨other, hold, hserving⟩)
        · rcases hmove.serving hserving with hold | ⟨addr, htable⟩
          · exact .inr (.inl ⟨task, hmem, hold⟩)
          · exact .inl ⟨addr, htable⟩
      · rw [grant_messages] at hmessage
        exact .inr (.inr ⟨message, hmessage, hserving⟩)
    change a.Valid m.now
    rw [hmove.now]
    rcases auth_grant ha with hold | ⟨g, hg, rfl⟩
    · exact hs.valid conn huse a hold
    · exact hcareful g hg
  case inbound =>
    intro conn hkey
    obtain ⟨key, hkey⟩ := Option.isSome_iff_exists.mp hkey
    rcases hmove.inboundSender hkey with hold | ⟨entry, hentry, -, rfl, -⟩
    · exact isSome_inbound_grant _ (hs.inbound conn (Option.isSome_iff_exists.mpr ⟨key, hold⟩))
    · exact inbound_of_entry htask hentry
  case outbound =>
    intro conn hmark
    rcases Node.stepTask_outbound htaken hmark with hold | hmarked
    · exact isSome_outbound_grant _ (hs.outbound conn hold)
    · refine outbound_of_marked htask hmarked fun target addr id hwaits => ?_
      exact hs.presented k target addr id (hwaits ▸ htask)
  case presented =>
    intro i target addr id hwaits
    change ((s.node.tasks.set k task')[i]?) = _ at hwaits
    rw [List.getElem?_set] at hwaits
    split at hwaits
    · rename_i heq
      subst heq
      split at hwaits
      · obtain rfl := Option.some.inj hwaits
        obtain ⟨token, signature, rfl⟩ := hmove.presenting
        simp [presentedBy, htask]
      · cases hwaits
    · exact isSome_presentedBy (hs.presented i target addr id hwaits)
  case requested =>
    intro src conn sender id payload hrequested
    refine hmove.isSome_inboundSender ?_
    rcases List.mem_or_eq_of_mem_set hrequested with hold | rfl
    · exact hs.requested src conn sender id payload hold
    · rw [hmove.sender]
      rfl
  case served =>
    intro served hserved
    rcases List.mem_append.mp hserved with hold | hnew
    · exact hs.served served hold
    · exact hs.servedBy served hnew

omit [DecidableEq D] in
/-- So does a new connection. -/
theorem Sound.connect (hs : s.Sound) (addr : SocketAddr) :
    Sound { s with
      node := { s.node with
        connections := s.node.connections ++ [.new addr]
        table := Function.update s.node.table addr (some s.node.connections.length) }
      inbound := Function.update s.inbound s.node.connections.length none
      outbound := Function.update s.outbound s.node.connections.length none } := by
  have hlt : ∀ conn key, s.node.inboundSender conn = some key →
      conn < s.node.connections.length := by
    intro conn key hkey
    obtain ⟨connection, hconn, -⟩ := Option.bind_eq_some_iff.mp hkey
    exact (List.getElem?_eq_some_iff.mp hconn).1
  constructor
  case valid =>
    intro conn huse a ha
    by_cases hnew : conn = s.node.connections.length
    · simp [auth, hnew] at ha
    · have ha : s.auth conn = some a := by
        simpa only [auth, Function.update_of_ne hnew] using ha
      refine hs.valid conn ?_ a ha
      rcases huse with ⟨other, htable⟩ | hrest
      · simp only [Function.update_apply] at htable
        split at htable
        · exact absurd (Option.some.inj htable).symm hnew
        · exact .inl ⟨other, htable⟩
      · exact .inr hrest
  case inbound =>
    intro conn hkey
    obtain ⟨key, hkey⟩ := Option.isSome_iff_exists.mp hkey
    have hold := Node.inboundSender_connect hkey
    simp only [Function.update_of_ne (Nat.ne_of_lt (hlt conn key hold))]
    exact hs.inbound conn (Option.isSome_iff_exists.mpr ⟨key, hold⟩)
  case outbound =>
    intro conn hmark
    obtain ⟨hold, hne⟩ := Node.outboundAuthenticated_connect hmark
    simp only [Function.update_of_ne hne]
    exact hs.outbound conn hold
  case presented => exact hs.presented
  case requested =>
    intro src conn sender id payload hrequested
    have hsome := hs.requested src conn sender id payload hrequested
    obtain ⟨key, hkey⟩ := Option.isSome_iff_exists.mp hsome
    simp only [Node.inboundSender, List.getElem?_append_left (hlt conn key hkey)] at hsome ⊢
    exact hsome
  case served => exact hs.served

omit [DecidableEq D] in
/-- So does a step of the node that leaves connections and tasks alone, unless new tasks come, as
long as no token ends that is in use. -/
theorem Sound.idle (hs : s.Sound) {n : Node D P R Q} {new : List (Task D R Q)}
    (hconnections : n.connections = s.node.connections)
    (htable : ∀ addr conn, n.table addr = some conn → s.node.table addr = some conn)
    (htasks : n.tasks = s.node.tasks ++ new)
    (hserving : ∀ task ∈ new, task.serving = none)
    (hwaits : ∀ target addr id, Task.awaitingPong target addr id ∉ new)
    (hnow : ∀ conn, s.InUse conn → ∀ a, s.auth conn = some a →
      a.token.isExpired n.now = false) : Sound { s with node := n } := by
  have hkeys : ∀ conn, n.inboundSender conn = s.node.inboundSender conn := by
    intro conn
    rw [Node.inboundSender, Node.inboundSender, hconnections]
  constructor
  case valid =>
    intro conn huse a ha
    have huse : s.InUse conn := by
      rcases huse with ⟨addr, haddr⟩ | ⟨task, htask, hconn⟩ | hmessage
      · exact .inl ⟨addr, htable addr conn haddr⟩
      · rcases List.mem_append.mp (htasks ▸ htask) with hold | hfresh
        · exact .inr (.inl ⟨task, hold, hconn⟩)
        · rw [hserving task hfresh] at hconn
          cases hconn
      · exact .inr (.inr hmessage)
    exact ⟨hnow conn huse a ha, (hs.valid conn huse a ha).2⟩
  case inbound =>
    intro conn hkey
    exact hs.inbound conn (hkeys conn ▸ hkey)
  case outbound =>
    intro conn hmark
    exact hs.outbound conn ((Node.outboundAuthenticated_congr hconnections conn).symm.trans hmark)
  case presented =>
    intro k target addr id htask
    change n.tasks[k]? = _ at htask
    rw [htasks, List.getElem?_append] at htask
    split at htask
    · exact hs.presented k target addr id htask
    · exact absurd (List.mem_of_getElem? htask) (hwaits target addr id)
  case requested =>
    intro src conn sender id payload hrequested
    change (n.inboundSender conn).isSome = true
    rw [hkeys]
    rcases List.mem_append.mp (htasks ▸ hrequested) with hold | hfresh
    · exact hs.requested src conn sender id payload hold
    · exact absurd (hserving _ hfresh) (by simp [Task.serving])
  case served => exact hs.served

omit [DecidableEq D] in
/-- So does a change of the messages, as long as those that find a connection find it in the
table and what is served is served properly. -/
theorem Sound.messages (hs : s.Sound) {messages : List PeerMessage} {new : List (Served D)}
    (hserving : ∀ m ∈ messages, ∀ conn, m.serving = some conn → s.InUse conn)
    (hnew : ∀ m ∈ new, m.Proper) :
    Sound { s with messages := messages, served := s.served ++ new } := by
  constructor
  case valid =>
    intro conn huse a ha
    refine hs.valid conn ?_ a ha
    rcases huse with htable | htask | ⟨m, hm, hconn⟩
    · exact .inl htable
    · exact .inr (.inl htask)
    · exact hserving m hm conn hconn
  case inbound => exact hs.inbound
  case outbound => exact hs.outbound
  case presented => exact hs.presented
  case requested => exact hs.requested
  case served => exact List.forall_mem_append.mpr ⟨hs.served, hnew⟩

omit [DecidableEq D] in
/-- A message that is set down finds no connection, or one in the table. -/
theorem inUse_of_mem_set {message : PeerMessage}
    (hmessage : ∀ conn, message.serving = some conn → ∃ addr, s.node.table addr = some conn) :
    ∀ m ∈ s.messages.set k message, ∀ conn, m.serving = some conn → s.InUse conn := by
  intro m hm conn hconn
  rcases List.mem_or_eq_of_mem_set hm with hold | rfl
  · exact .inr (.inr ⟨m, hold, hconn⟩)
  · exact .inl (hmessage conn hconn)

omit [DecidableEq D] in
/-- A step of a message keeps the record sound. -/
theorem Sound.forward (hs : s.Sound) {message : PeerMessage} (hmem : message ∈ s.messages)
    (hstep : s.stepMessage k message = some s') : s'.Sound := by
  have hdone : ∀ conn, PeerMessage.done.serving = some conn →
      ∃ addr, s.node.table addr = some conn :=
    fun conn hconn => by cases hconn
  have hkept : Sound { s with messages := s.messages.set k .done } := by
    simpa using hs.messages (inUse_of_mem_set hdone) (fun m hm => absurd hm List.not_mem_nil)
  cases message with
  | arrived src channel =>
    rw [stepMessage] at hstep
    split at hstep
    · cases hstep
      exact hkept
    · rename_i conn htable
      cases hstep
      have hfound : ∀ c, (PeerMessage.found conn channel).serving = some c →
          ∃ addr, s.node.table addr = some c :=
        fun c hc => ⟨src, htable.trans hc⟩
      simpa using hs.messages (inUse_of_mem_set hfound) (fun m hm => absurd hm List.not_mem_nil)
  | found conn channel =>
    rw [stepMessage] at hstep
    split at hstep
    · rename_i hauth
      cases hstep
      refine hs.messages (inUse_of_mem_set hdone) (List.forall_mem_singleton.mpr ?_)
      exact hs.proper (.inr (.inr ⟨_, hmem, rfl⟩)) hauth (.message channel)
    · cases hstep
      exact hkept
  | done => cases hstep

/-- Every careful step keeps the record sound. -/
theorem Sound.step {a : ServiceLabel D P R Q} (hs : s.Sound) (hcareful : s.Careful a)
    (hstep : s.step host a = some s') : s'.Sound := by
  have hnow : ∀ conn, s.InUse conn → ∀ a, s.auth conn = some a →
      a.token.isExpired s.node.now = false :=
    fun conn huse a ha => (hs.valid conn huse a ha).1
  have hnil : ∀ task ∈ ([] : List (Task D R Q)), task.serving = none :=
    fun task htask => absurd htask List.not_mem_nil
  cases a with
  | message src channel =>
    cases hstep
    have harrived : ∀ m ∈ s.messages ++ [.arrived src channel], ∀ conn,
        m.serving = some conn → s.InUse conn := by
      intro m hm conn hconn
      rcases List.mem_append.mp hm with hold | hnew
      · exact .inr (.inr ⟨m, hold, hconn⟩)
      · rw [List.mem_singleton.mp hnew] at hconn
        cases hconn
    simpa using hs.messages harrived (fun m hm => absurd hm List.not_mem_nil)
  | forward k =>
    obtain ⟨message, hmessage, hforward⟩ := Option.bind_eq_some_iff.mp hstep
    exact hs.forward (List.mem_of_getElem? hmessage) hforward
  | node label =>
    cases label with
    | advance k o =>
      obtain ⟨n, hn, rfl⟩ := Option.map_eq_some_iff.mp hstep
      exact hs.advance hcareful hn
    | connect addr =>
      cases hstep
      exact hs.connect addr
    | clock now =>
      cases hstep
      exact hs.idle rfl (fun _ _ h => h) (List.append_nil _).symm hnil (by simp) hcareful
    | packet src packet =>
      cases hstep
      exact hs.idle rfl (fun _ _ h => h) rfl (by simp [Task.serving]) (by simp) hnow
    | join bootstrap =>
      cases hstep
      exact hs.idle rfl (fun _ _ h => h) rfl (by simp [Task.serving]) (by simp) hnow
    | authenticate target addr =>
      cases hstep
      exact hs.idle rfl (fun _ _ h => h) rfl (by simp [Task.serving]) (by simp) hnow
    | renewSalt salt =>
      cases hstep
      exact hs.idle rfl (fun _ _ h => h) (List.append_nil _).symm hnil (by simp) hnow
    | loadKeys pgpKeys =>
      cases hstep
      exact hs.idle rfl (fun _ _ h => h) (List.append_nil _).symm hnil (by simp) hnow
    | disconnect addr =>
      cases hstep
      refine hs.idle rfl (fun other conn h => ?_) (List.append_nil _).symm hnil (by simp) hnow
      simp only [Function.update_apply] at h
      split at h
      · cases h
      · exact h

/-- In every careful run, every message that is served is served under a token that is in force
and was not issued to a rejected peer. -/
theorem served_proper {salt : Bytes} {as : List (ServiceLabel D P R Q)} {t : Service D P R Q}
    (hcareful : Along (step host) Careful (start salt) as)
    (hrun : run (step host) (start salt) as = some t) : ∀ m ∈ t.served, m.Proper := by
  have hstart : (start salt : Service D P R Q).Sound := by
    constructor
    case valid => exact fun conn _ a ha => by cases ha
    case inbound => exact fun conn hkey => by cases hkey
    case outbound => exact fun conn hmark => by cases hmark
    case presented => exact fun k target addr id htask => by cases htask
    case requested => exact fun src conn sender id payload htask => by cases htask
    case served => exact fun m hm => by cases hm
  have ht : t.Sound :=
    run_invariant_along (fun s a s' hs hc hstep => hs.step hc hstep) hstart hcareful hrun
  exact ht.served

end Service

/-- Steps in which the clock stands still and connections are authenticated with valid tokens
only. -/
def Service.Still [DecidableEq D] (s : Service D P R Q) : ServiceLabel D P R Q → Prop
  | .node (.advance k o) => ∀ g ∈ s.granted k o, g.auth.Valid s.node.now
  | .node (.clock _) => False
  | _ => True

instance [DecidableEq D] (s : Service D P R Q) (a : ServiceLabel D P R Q) :
    Decidable (s.Still a) :=
  match a with
  | .node (.advance k o) =>
      inferInstanceAs (Decidable (∀ g ∈ s.granted k o, g.auth.Valid s.node.now))
  | .node (.clock _) => inferInstanceAs (Decidable False)
  | .node (.packet _ _) | .node (.join _) | .node (.authenticate _ _) | .node (.renewSalt _)
  | .node (.loadKeys _) | .node (.connect _) | .node (.disconnect _) | .message _ _
  | .forward _ => inferInstanceAs (Decidable True)

/-- A step that leaves the clock and the connections alone is careful. -/
theorem Service.careful_of_still [DecidableEq D] (s : Service D P R Q)
    (a : ServiceLabel D P R Q) (h : s.Still a) : s.Careful a := by
  unfold Service.Still at h
  unfold Service.Careful
  split at h
  · exact h
  · exact h.elim
  · trivial

/-- The newcomer of before sends a request and a message of the peer exchange. -/
def serviceRun : List (ServiceLabel Bytes Unit Unit Unit) :=
  sampleRun.map .node ++ [.message sampleAddr .pex, .forward 0, .forward 0]

/-- Both are served while its token is in force. -/
theorem served_proper_newcomer :
    ∃ t, run (Service.step sampleHost) (Service.start sampleSalt) serviceRun = some t ∧
      t.served.map (·.kind) = [.request, .message .pex] ∧ ∀ m ∈ t.served, m.Proper := by
  have hends : (run (Service.step sampleHost) (Service.start sampleSalt) serviceRun).map
      (fun t => t.served.map (·.kind)) = some [.request, .message .pex] := by decide +kernel
  obtain ⟨t, ht, hkinds⟩ := Option.map_eq_some_iff.mp hends
  refine ⟨t, ht, hkinds, Service.served_proper ?_ ht⟩
  -- no connection is in use when the clock is set
  refine ⟨fun conn huse a ha => ?_, fun s hs => ?_⟩
  · cases ha
  · cases hs
    refine Along.imp Service.careful_of_still ?_
    decide +kernel

/-- The newcomer waits until its token has expired and sends a message of the peer exchange. -/
def expiredRun : List (ServiceLabel Bytes Unit Unit Unit) :=
  sampleRun.map .node ++
    [.node (.clock 1700001801), .message sampleAddr .pex, .forward 0, .forward 0]

/-- The SHA-256 value of the token of a newcomer whose attestation is rejected. -/
def rejectedTokenHash : Bytes :=
  numeralBytes 32 0xd40593059cff65a5bd3f5916c971b834d7e7c24bf35b0e01e18fa56e61ecc3fa

/-- The node's signature of that token. -/
def rejectedTokenSignature : Bytes :=
  numeralBytes 32 0x12df215394e7a0dd377f8248d6477cfe731a99ba6a1442f3bf28b78627c1366b ++
    numeralBytes 32 0x882ba2ff57c92c4e3f7a0cb9afd8b609ea3fa3d602b901a93ccc36251a382807

/-- A node that compares an attestation with a measurement and finds another one. -/
def rejectingHost : Host Bytes Unit Unit Unit where
  crypto := { sampleCrypto with
    digest := fun chunks =>
      if chunks = [samplePeer, sampleWork, be64 1700001800, be64 1700000000, [2],
        List.replicate 32 0, [], [], sampleIssuer] then rejectedTokenHash
      else sampleCrypto.digest chunks }
  identity := ⟨sampleIssuer, fun data => if data = rejectedTokenHash then
    some rejectedTokenSignature else none, [], none⟩
  verifyReport _ _ _ := false
  version := "0.1.0"

/-- A newcomer submits its proof of work with an attestation and then sends a message of a
torrent. -/
def rejectedRun : List (ServiceLabel Bytes Unit Unit Unit) :=
  [.node (.clock 1700000000), .node (.connect sampleAddr),
    .node (.packet sampleAddr (.handShake 1 (.submitChallange ⟨[], samplePeer⟩ sampleWork 26003408
      sampleWorkSignature (some ()) "0.1.0"))),
    .node (.advance 0 {}), .node (.advance 0 {}),
    .node (.advance 0 ⟨true, some (List.replicate 32 1), 0⟩), .node (.advance 0 {}),
    .node (.advance 0 {}), .message sampleAddr .standard, .forward 0, .forward 0]

/-- A connection stays authenticated when its token expires, and a token for a rejected platform
authenticates like any other. -/
theorem served_improper :
    (∃ t, run (Service.step sampleHost) (Service.start sampleSalt) expiredRun = some t ∧
      ∃ m ∈ t.served, ¬ m.Proper ∧ m.auth.any (·.token.isExpired m.now) = true) ∧
    ∃ t, run (Service.step rejectingHost) (Service.start sampleSalt) rejectedRun = some t ∧
      ∃ m ∈ t.served, ¬ m.Proper ∧
        m.auth.any (fun a => decide (a.token.trustLevel = .rejected)) = true := by
  constructor
  · refine exists_of_any ?_
    decide +kernel
  · refine exists_of_any ?_
    decide +kernel

end Bqti.Dht
