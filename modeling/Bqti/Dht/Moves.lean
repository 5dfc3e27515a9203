import Bqti.Dht.Node

/-!
# What a task can do

One relation lists every step that a task of a node can take, with the checks that led to it.
Everything that is proved about runs of nodes goes through this list.
-/

namespace Bqti.Dht

open Bqti.Core

variable {D P S R Q : Type*}

/-- What a task is about to note down when it writes a key into a connection. -/
def Task.entry (host : Host D P S R) : Task D R Q → Option (Authenticated D)
  | .replied src conn token proof => some ⟨conn, src, token.sender host.crypto, proof⟩
  | .binding bootstrap conn token =>
      some ⟨conn, bootstrap, Key.new host.crypto token.issuer, .welcome token⟩
  | _ => none

/-- The request that a task is about to send, and where to. -/
def Task.calls (host : Host D P S R) :
    Task D R Q → Option (SocketAddr × DhtRequest D R)
  | .joining bootstrap _ => some (bootstrap, .requestChallange host.key)
  | .solved bootstrap _ secret => secret.signature.map fun signature =>
      (bootstrap, .submitChallange host.key secret.value secret.nonce signature
        secret.attestation host.version)
  | .greeting _ addr _ => some (addr, .requestHandshake host.key)
  | .presenting _ addr token signature => some (addr, .submitHandshake token signature)
  | _ => none

namespace Node

variable [DecidableEq D]

/-- The steps of tasks: the node and the task before, then the node and the task after. -/
inductive Moves (host : Host D P S R) (n : Node D P R Q) :
    Task D R Q → Node D P R Q → Task D R Q → Prop
  | stop {task : Task D R Q} (result : Except KademliaError Unit) :
      Moves host n task n (.finished result)
  | closed {task : Task D R Q} (conn : Nat) (result : Except KademliaError Unit) :
      Moves host n task (n.close conn) (.finished result)
  | lookedUp {src : SocketAddr} {conn : Nat} {packet : DhtPacket D R Q}
      (table : n.table src = some conn) :
      Moves host n (.arrived src packet) n (.found src conn packet)
  | dispatched {src : SocketAddr} {conn : Nat} {id : RequestId} {payload : DhtResponse D} :
      Moves host n (.found src conn (.response id payload)) (n.dispatch src id payload)
        (.finished (.ok ()))
  | requested {src : SocketAddr} {conn : Nat} {id : RequestId} {payload : Q} {sender : Key D}
      (auth : n.inboundSender conn = some sender) :
      Moves host n (.found src conn (.request id payload)) n
        (.requested src conn sender id payload)
  | asked {src : SocketAddr} {conn : Nat} {id : RequestId} {request : DhtRequest D R}
      {response : DhtResponse D} (plain : ∀ token, response ≠ .welcome token) :
      Moves host n (.found src conn (.handShake id request)) n
        (.replying src conn id response none)
  | challenged {src : SocketAddr} {conn : Nat} {id : RequestId} {token : Token D}
      {signature : Bytes} {challange : UInt32}
      (current : n.challange host (token.sender host.crypto).pubKey src.ip = some challange) :
      Moves host n (.found src conn (.handShake id (.submitHandshake token signature))) n
        (.challenged src conn id token signature challange)
  | submitted {src : SocketAddr} {conn : Nat} {id : RequestId} {senderId : Key D} {value : D}
      {nonce : UInt32} {signature : Bytes} {report : Option R} {version : String}
      {challange : UInt32} (current : n.challange host senderId.pubKey src.ip = some challange) :
      Moves host n
        (.found src conn
          (.handShake id (.submitChallange senderId value nonce signature report version))) n
        (.submitted src conn id senderId
          ⟨value, challange, nonce, some signature, report, difficulty⟩)
  | served {src : SocketAddr} {conn : Nat} {sender : Key D} {id : RequestId} {payload : Q}
      (limiter : RateLimiter D) :
      Moves host n (.requested src conn sender id payload) { n with limiter := limiter }
        (.handling src conn sender id payload)
  | limited {src : SocketAddr} {conn : Nat} {sender : Key D} {id : RequestId} {payload : Q}
      (limiter : RateLimiter D) :
      Moves host n (.requested src conn sender id payload) { n with limiter := limiter }
        (.finished (.error (.auth .rateLimited)))
  | owned {src : SocketAddr} {conn : Nat} {id : RequestId} {token : Token D} {signature : Bytes}
      {challange : UInt32} (verified : token.verify host.crypto n.now = true)
      (trusted : token.verifyPgp host.crypto n.pgpKeys = true)
      (owner : host.crypto.verify (token.sender host.crypto).pubKey
        (host.crypto.bytes (token.hash host.crypto) ++ be32 challange) signature = true) :
      Moves host n (.challenged src conn id token signature challange) n
        (.replying src conn id (.pong host.key)
          (some (token, .ownership token signature challange)))
  | issued {src : SocketAddr} {conn : Nat} {id : RequestId} {senderId : Key D}
      {secret : PoW D R} {manifest : Option Bytes} {token : Token D}
      (issue : issueToken host.crypto host.identity host.verifyReport manifest n.now
        senderId.pubKey secret = some (.ok token)) :
      Moves host n (.submitted src conn id senderId secret) n
        (.replying src conn id (.welcome token)
          (some (token, .work senderId secret.value secret.nonce (secret.signature.getD []))))
  | answered {src : SocketAddr} {conn : Nat} {id : RequestId} {response : DhtResponse D} :
      Moves host n (.replying src conn id response none) (n.send src (.response id response))
        (.finished (.ok ()))
  | replied {src : SocketAddr} {conn : Nat} {id : RequestId} {response : DhtResponse D}
      {token : Token D} {proof : Proof D} :
      Moves host n (.replying src conn id response (some (token, proof)))
        (n.send src (.response id response)) (.replied src conn token proof)
  | granted {src : SocketAddr} {conn : Nat} {token : Token D} {proof : Proof D} :
      Moves host n (.replied src conn token proof)
        (n.setInboundAuth ⟨conn, src, token.sender host.crypto, proof⟩) (.finished (.ok ()))
  | unsent {task : Task D R Q} :
      Moves host n task n.register (.finished (.error .rpc))
  | gaveUp {task : Task D R Q} (id : RequestId) :
      Moves host n task (n.giveUp id) (.finished (.error .rpc))
  | outbound {task : Task D R Q} (conn : Nat) :
      Moves host n task (n.setOutboundAuthenticated conn) (.finished (.ok ()))
  | joined {bootstrap : SocketAddr} {attempt : Nat} :
      Moves host n (.joining bootstrap attempt)
        (n.register.send bootstrap (.handShake n.nextId (.requestChallange host.key)))
        (.awaitingChallange bootstrap attempt n.nextId)
  | proving {bootstrap : SocketAddr} {attempt : Nat} {id : RequestId}
      {challange difficulty : UInt32} :
      Moves host n (.awaitingChallange bootstrap attempt id) n
        (.proving bootstrap attempt challange difficulty)
  | solved {bootstrap : SocketAddr} {attempt : Nat} {challange difficulty : UInt32}
      {secret : PoW D R} {signature : Bytes} (signed : secret.signature = some signature)
      (sign : host.identity.signer (host.crypto.bytes secret.value) = some signature) :
      Moves host n (.proving bootstrap attempt challange difficulty) n
        (.solved bootstrap attempt secret)
  | submitting {bootstrap : SocketAddr} {attempt : Nat} {secret : PoW D R} {signature : Bytes}
      {conn : Nat} (signed : secret.signature = some signature)
      (table : n.table bootstrap = some conn) :
      Moves host n (.solved bootstrap attempt secret)
        (n.register.send bootstrap (.handShake n.nextId (.submitChallange host.key secret.value
          secret.nonce signature secret.attestation host.version)))
        (.awaitingWelcome bootstrap attempt n.nextId)
  | welcomed {bootstrap source : SocketAddr} {attempt : Nat} {id : RequestId} {token : Token D}
      (answer : n.answers id = some (source, .welcome token)) :
      Moves host n (.awaitingWelcome bootstrap attempt id) n
        (.welcomed bootstrap attempt id source token)
  | retried {bootstrap source : SocketAddr} {attempt : Nat} {id : RequestId} {token : Token D} :
      Moves host n (.welcomed bootstrap attempt id source token) n
        (.joining bootstrap (attempt + 1))
  | trusted {bootstrap source : SocketAddr} {attempt : Nat} {id : RequestId} {token : Token D}
      (verified : token.verifyFor host.crypto host.key.pubKey n.now = true)
      (pgp : token.verifyPgp host.crypto n.pgpKeys = true) :
      Moves host n (.welcomed bootstrap attempt id source token) n (.trusted bootstrap token)
  | unbound {bootstrap : SocketAddr} {token : Token D} :
      Moves host n (.trusted bootstrap token) n (.storing token)
  | binding {bootstrap : SocketAddr} {token : Token D} {conn : Nat}
      (table : n.table bootstrap = some conn) :
      Moves host n (.trusted bootstrap token) (n.setOutboundAuthenticated conn)
        (.binding bootstrap conn token)
  | bound {bootstrap : SocketAddr} {token : Token D} {conn : Nat} :
      Moves host n (.binding bootstrap conn token)
        (n.setInboundAuth ⟨conn, bootstrap, Key.new host.crypto token.issuer, .welcome token⟩)
        (.storing token)
  | stored {token : Token D} :
      Moves host n (.storing token) { n with token := some token } (.finished (.ok ()))
  | greeting {target : Key D} {addr : SocketAddr} {token : Token D}
      (best : n.bestToken = some token) :
      Moves host n (.authenticating target addr) n (.greeting target addr token)
  | greeted {target : Key D} {addr : SocketAddr} {token : Token D} :
      Moves host n (.greeting target addr token)
        (n.register.send addr (.handShake n.nextId (.requestHandshake host.key)))
        (.awaitingNonce target addr token n.nextId)
  | signing {target : Key D} {addr : SocketAddr} {token : Token D} {id : RequestId}
      {nonce : UInt32} :
      Moves host n (.awaitingNonce target addr token id) n (.signing target addr token nonce)
  | signed {target : Key D} {addr : SocketAddr} {token : Token D} {nonce : UInt32}
      {signature : Bytes}
      (sign : host.identity.signer (host.crypto.bytes (token.hash host.crypto) ++ be32 nonce) =
        some signature) :
      Moves host n (.signing target addr token nonce) n
        (.presenting target addr token signature)
  | presented {target : Key D} {addr : SocketAddr} {token : Token D} {signature : Bytes} :
      Moves host n (.presenting target addr token signature)
        (n.register.send addr (.handShake n.nextId (.submitHandshake token signature)))
        (.awaitingPong target addr n.nextId)

variable {host : Host D P S R} {n n' : Node D P R Q} {o : Outcome} {task task' : Task D R Q}

/-- A packet other than a response is handled by one of the moves. -/
theorem handlePacket_moves {src : SocketAddr} {conn : Nat} (packet : DhtPacket D R Q) :
    Moves host n (.found src conn packet) n (n.handlePacket host src conn packet) := by
  cases packet with
  | request id payload =>
    simp only [handlePacket]
    split
    · exact .stop _
    · exact .requested ‹_›
  | response id payload => exact .stop _
  | handShake id payload =>
    cases payload with
    | requestChallange senderId | requestHandshake senderId =>
      simp only [handlePacket, answer]
      split
      · exact .stop _
      · exact .asked fun token => by simp
    | submitHandshake token signature =>
      simp only [handlePacket]
      split
      · exact .stop _
      · exact .challenged ‹_›
    | submitChallange senderId value nonce signature report version =>
      simp only [handlePacket]
      split
      · exact .stop _
      · exact .submitted ‹_›

/-- The steps of tasks that handle packets. -/
theorem stepServer_moves (h : n.stepServer host o task = some (n', task')) :
    Moves host n task n' task' := by
  cases task with
  | arrived src packet =>
    simp only [stepServer] at h
    split at h
    · cases h
      exact .stop _
    · rename_i conn htable
      cases h
      exact .lookedUp htable
  | found src conn packet =>
    cases packet with
    | response id payload =>
      cases h
      exact .dispatched
    | request | handShake =>
      cases h
      exact handlePacket_moves _
  | requested src conn sender id payload =>
    simp only [stepServer] at h
    split at h
    · cases h
      exact .served _
    · cases h
      exact .limited _
  | challenged src conn id token signature challange =>
    simp only [stepServer] at h
    split at h
    · cases h
      exact .closed conn _
    · rename_i hchecks
      simp only [Bool.or_eq_true, Bool.not_eq_true', not_or, Bool.not_eq_false] at hchecks
      split at h
      · cases h
        exact .closed conn _
      · rename_i howner
        simp only [Bool.not_eq_true', Bool.not_eq_false] at howner
        cases h
        exact .owned hchecks.1 hchecks.2 howner
  | submitted src conn id senderId secret =>
    simp only [stepServer] at h
    split at h
    · cases h
      exact .stop _
    · cases h
      exact .stop _
    · rename_i token hissue
      cases h
      exact .issued hissue
  | replying src conn id response grant =>
    simp only [stepServer] at h
    split at h
    · cases grant with
      | none =>
        cases h
        exact .answered
      | some grant =>
        cases h
        exact .replied
    · cases h
      exact .stop _
  | replied src conn token proof =>
    cases h
    exact .granted
  | _ => exact absurd h (by simp [stepServer])

/-- A call leads to its waiting state, or ends unsent. -/
theorem call_moves {addr : SocketAddr} {request : DhtRequest D R}
    {wait : RequestId → Task D R Q} (h : some (n.call o addr request wait) = some (n', task'))
    (hsent : ∀ conn, n.table addr = some conn → Moves host n task
      (n.register.send addr (.handShake n.nextId request)) (wait n.nextId)) :
    Moves host n task n' task' := by
  have he := Option.some.inj h
  unfold call at he
  split at he
  · rename_i hok
    obtain ⟨conn, htable⟩ := Option.isSome_iff_exists.mp (Bool.and_eq_true_iff.mp hok).2
    cases he
    exact hsent conn htable
  · cases he
    exact .unsent

/-- A waiting call goes on with the response that has come for it, or gives up. -/
theorem await_moves {id : RequestId}
    {next : SocketAddr → DhtResponse D → Node D P R Q × Task D R Q}
    (h : n.await o id next = some (n', task'))
    (hnext : ∀ source response, n.answers id = some (source, response) →
      Moves host n task (next source response).1 (next source response).2) :
    Moves host n task n' task' := by
  unfold await at h
  split at h
  · obtain ⟨⟨source, response⟩, ha, he⟩ := Option.map_eq_some_iff.mp h
    have hmove := hnext source response ha
    simp only at he
    rwa [he] at hmove
  · cases h
    exact .gaveUp id

/-- The steps of tasks that join the network. -/
theorem stepJoin_moves (h : n.stepJoin host o task = some (n', task')) :
    Moves host n task n' task' := by
  cases task with
  | joining bootstrap attempt =>
    simp only [stepJoin] at h
    exact call_moves h fun _ _ => .joined
  | awaitingChallange bootstrap attempt id =>
    simp only [stepJoin] at h
    refine await_moves h fun source response _ => ?_
    split
    · exact .proving
    · exact .stop _
  | proving bootstrap attempt challange difficulty =>
    simp only [stepJoin] at h
    split at h
    · cases h
      exact .stop _
    · exact absurd h (by simp)
    · split at h
      · cases h
        exact .stop _
      · rename_i signature hsign
        cases h
        exact .solved rfl hsign
  | solved bootstrap attempt secret =>
    simp only [stepJoin] at h
    split at h
    · cases h
      exact .stop _
    · rename_i signature hsigned
      exact call_moves h fun _ htable => .submitting hsigned htable
  | awaitingWelcome bootstrap attempt id =>
    simp only [stepJoin] at h
    refine await_moves h fun source response ha => ?_
    split
    · exact .welcomed ha
    · exact .stop _
  | welcomed bootstrap attempt id source token =>
    simp only [stepJoin] at h
    split at h
    · cases h
      unfold retry
      split
      · exact .retried
      · exact .stop _
    · rename_i hchecks
      simp only [Bool.or_eq_true, Bool.not_eq_true', not_or, Bool.not_eq_false] at hchecks
      cases h
      exact .trusted hchecks.1 hchecks.2
  | trusted bootstrap token =>
    simp only [stepJoin] at h
    split at h
    · cases h
      exact .unbound
    · rename_i conn htable
      cases h
      exact .binding htable
  | binding bootstrap conn token =>
    cases h
    exact .bound
  | storing token =>
    cases h
    exact .stored
  | _ => exact absurd h (by simp [stepJoin])

/-- The steps of tasks that authenticate the node. -/
theorem stepAuthenticate_moves (h : n.stepAuthenticate host o task = some (n', task')) :
    Moves host n task n' task' := by
  cases task with
  | authenticating target addr =>
    simp only [stepAuthenticate] at h
    split at h
    · cases h
      exact .stop _
    · rename_i token hbest
      cases h
      exact .greeting hbest
  | greeting target addr token =>
    simp only [stepAuthenticate] at h
    exact call_moves h fun _ _ => .greeted
  | awaitingNonce target addr token id =>
    simp only [stepAuthenticate] at h
    refine await_moves h fun source response _ => ?_
    split
    · exact .signing
    · exact .stop _
  | signing target addr token nonce =>
    simp only [stepAuthenticate] at h
    split at h
    · cases h
      exact .stop _
    · rename_i signature hsign
      cases h
      exact .signed hsign
  | presenting target addr token signature =>
    simp only [stepAuthenticate] at h
    exact call_moves h fun _ _ => .presented
  | awaitingPong target addr id =>
    simp only [stepAuthenticate] at h
    refine await_moves h fun source response _ => ?_
    split
    · split
      · exact .stop _
      · split
        · exact .stop _
        · exact .outbound _
    · exact .stop _
  | _ => exact absurd h (by simp [stepAuthenticate])

/-- Every step of a task is one of the moves. -/
theorem stepTask_moves (h : n.stepTask host o task = some (n', task')) :
    Moves host n task n' task' := by
  simp only [stepTask, Option.orElse_eq_orElse, Option.orElse_eq_or, Option.or_eq_some_iff] at h
  rcases h with hs | ⟨-, hj | ⟨-, ha⟩⟩
  · exact stepServer_moves hs
  · exact stepJoin_moves hj
  · exact stepAuthenticate_moves ha

/-- A step that advances a task is a move of it. -/
theorem advance_moves {k : Nat} (h : n.step host (.advance k o) = some n') :
    ∃ task m task', n.tasks[k]? = some task ∧ Moves host n task m task' ∧
      n' = { m with tasks := n.tasks.set k task' } := by
  simp only [Node.step, Option.bind_eq_some_iff, Option.map_eq_some_iff] at h
  obtain ⟨task, htask, ⟨m, task'⟩, hstep, rfl⟩ := h
  exact ⟨task, m, task', htask, stepTask_moves hstep, rfl⟩

/-! ## What a move leaves alone -/

/-- No move changes the remote address of a connection. -/
theorem Moves.remote (h : Moves host n task n' task') (c : Nat) : n'.remote c = n.remote c := by
  cases h with
  | closed conn result => exact remote_close c
  | outbound conn => exact remote_setOutboundAuthenticated c
  | binding table => exact remote_setOutboundAuthenticated c
  | granted => exact remote_setInboundPeer c
  | bound => exact remote_setInboundPeer c
  | dispatched =>
    unfold dispatch
    split <;> rfl
  | _ => rfl

/-- No move registers a connection. -/
theorem Moves.table (h : Moves host n task n' task') : n'.table = n.table := by
  cases h with
  | dispatched =>
    unfold dispatch
    split <;> rfl
  | _ => rfl

/-- A move stores only the token that a join ended with. -/
theorem Moves.token (h : Moves host n task n' task') :
    n'.token = n.token ∨ ∃ token, task = .storing token ∧ n'.token = some token := by
  cases h with
  | stored => exact Or.inr ⟨_, rfl, rfl⟩
  | dispatched =>
    left
    unfold dispatch
    split <;> rfl
  | _ => exact Or.inl rfl

/-- An answer that a move leaves behind was there before or has just been dispatched. -/
theorem Moves.answers (h : Moves host n task n' task') {id : RequestId} {source : SocketAddr}
    {payload : DhtResponse D} (ha : n'.answers id = some (source, payload)) :
    n.answers id = some (source, payload) ∨
      ∃ conn, task = .found source conn (.response id payload) := by
  have hregister : n.register.answers id = some (source, payload) →
      n.answers id = some (source, payload) := by
    intro hr
    simp only [register, Function.update_apply] at hr
    split at hr
    · exact absurd hr (by simp)
    · exact hr
  cases h with
  | @dispatched src conn id' payload' =>
    unfold dispatch at ha
    split at ha
    · simp only [Function.update_apply] at ha
      split at ha
      · rename_i hid
        cases Option.some.inj ha
        exact Or.inr ⟨conn, by rw [hid]⟩
      · exact Or.inl ha
    · exact Or.inl ha
  | unsent => exact Or.inl (hregister ha)
  | joined => exact Or.inl (hregister ha)
  | submitting signed => exact Or.inl (hregister ha)
  | greeted => exact Or.inl (hregister ha)
  | presented => exact Or.inl (hregister ha)
  | _ => exact Or.inl ha

/-- A move notes down at most the key that its task writes. -/
theorem Moves.history (h : Moves host n task n' task') :
    n'.history = n.history ∨
      ∃ entry, task.entry host = some entry ∧ n'.history = n.history ++ [entry] := by
  cases h with
  | granted => exact Or.inr ⟨_, rfl, rfl⟩
  | bound => exact Or.inr ⟨_, rfl, rfl⟩
  | dispatched =>
    left
    unfold dispatch
    split <;> rfl
  | _ => exact Or.inl rfl

/-- A move sends nothing, a response, or the request of a call. -/
theorem Moves.sent (h : Moves host n task n' task') :
    n'.sent = n.sent ∧ (n'.nextId = n.nextId ∨ n'.nextId = (n.nextId + 1) % 2 ^ 64) ∨
    (∃ src conn id response grant, task = .replying src conn id response grant ∧
      n'.sent = n.sent ++ [(src, .response id response)] ∧ n'.nextId = n.nextId) ∨
    ∃ addr request, task.calls host = some (addr, request) ∧
      n'.sent = n.sent ++ [(addr, .handShake n.nextId request)] ∧
      n'.nextId = (n.nextId + 1) % 2 ^ 64 := by
  cases h with
  | answered => exact Or.inr (Or.inl ⟨_, _, _, _, _, rfl, rfl, rfl⟩)
  | replied => exact Or.inr (Or.inl ⟨_, _, _, _, _, rfl, rfl, rfl⟩)
  | joined => exact Or.inr (Or.inr ⟨_, _, rfl, rfl, rfl⟩)
  | submitting signed =>
    refine Or.inr (Or.inr ⟨_, _, ?_, rfl, rfl⟩)
    rw [Task.calls, signed, Option.map_some]
  | greeted => exact Or.inr (Or.inr ⟨_, _, rfl, rfl, rfl⟩)
  | presented => exact Or.inr (Or.inr ⟨_, _, rfl, rfl, rfl⟩)
  | unsent => exact Or.inl ⟨rfl, Or.inr rfl⟩
  | dispatched =>
    left
    unfold dispatch
    split
    · exact ⟨rfl, Or.inl rfl⟩
    · exact ⟨rfl, Or.inl rfl⟩
  | _ => exact Or.inl ⟨rfl, Or.inl rfl⟩

/-- A move keeps what the node has sent. -/
theorem Moves.sent_subset (h : Moves host n task n' task') : n.sent ⊆ n'.sent := by
  rcases h.sent with ⟨hsent, -⟩ | ⟨_, _, _, _, _, -, hsent, -⟩ | ⟨_, _, -, hsent, -⟩
  · exact hsent ▸ List.Subset.refl _
  · exact hsent ▸ List.subset_append_left ..
  · exact hsent ▸ List.subset_append_left ..

/-- A call takes one number. -/
theorem Moves.nextId (h : Moves host n task n' task') :
    n'.nextId = n.nextId ∨ n'.nextId = (n.nextId + 1) % 2 ^ 64 := by
  rcases h.sent with ⟨-, hid⟩ | ⟨_, _, _, _, _, -, -, hid⟩ | ⟨_, _, -, -, hid⟩
  · exact hid
  · exact Or.inl hid
  · exact Or.inr hid

/-- A request on the wire was there before or is the call of the task under a new number. -/
theorem Moves.request_mem (h : Moves host n task n' task') {addr : SocketAddr} {id : RequestId}
    {request : DhtRequest D R} (hr : (addr, .handShake id request) ∈ n'.sent) :
    (addr, .handShake id request) ∈ n.sent ∨
      task.calls host = some (addr, request) ∧ id = n.nextId ∧
        n'.nextId = (n.nextId + 1) % 2 ^ 64 := by
  rcases h.sent with ⟨hsent, -⟩ | ⟨_, _, _, _, _, -, hsent, -⟩ | ⟨_, _, hcalls, hsent, hid⟩
  · exact Or.inl (hsent ▸ hr)
  · rw [hsent, List.mem_append, List.mem_singleton] at hr
    rcases hr with hold | hnew
    · exact Or.inl hold
    · cases hnew
  · rw [hsent, List.mem_append, List.mem_singleton] at hr
    rcases hr with hold | hnew
    · exact Or.inl hold
    · cases hnew
      exact Or.inr ⟨hcalls, rfl, hid⟩

/-- A response on the wire was there before or is the reply of the task. -/
theorem Moves.response_mem (h : Moves host n task n' task') {addr : SocketAddr} {id : RequestId}
    {response : DhtResponse D} (hr : (addr, .response id response) ∈ n'.sent) :
    (addr, .response id response) ∈ n.sent ∨
      ∃ conn grant, task = .replying addr conn id response grant := by
  rcases h.sent with ⟨hsent, -⟩ | ⟨_, _, _, _, _, htask, hsent, -⟩ | ⟨_, _, -, hsent, -⟩
  · exact Or.inl (hsent ▸ hr)
  · rw [hsent, List.mem_append, List.mem_singleton] at hr
    rcases hr with hold | hnew
    · exact Or.inl hold
    · cases hnew
      exact Or.inr ⟨_, _, htask⟩
  · rw [hsent, List.mem_append, List.mem_singleton] at hr
    rcases hr with hold | hnew
    · exact Or.inl hold
    · cases hnew

/-- A move writes a key into a connection only as its task notes it down. -/
theorem Moves.inboundSender (h : Moves host n task n' task') {c : Nat} {key : Key D}
    (hc : n'.inboundSender c = some key) :
    n.inboundSender c = some key ∨
      ∃ entry, task.entry host = some entry ∧ n'.history = n.history ++ [entry] ∧
        entry.conn = c ∧ entry.key = key := by
  cases h with
  | granted | bound =>
    rcases inboundSender_setInboundPeer hc with hold | ⟨rfl, rfl⟩
    · exact Or.inl hold
    · exact Or.inr ⟨_, rfl, rfl, rfl, rfl⟩
  | closed | outbound | binding | dispatched =>
    left
    simpa using hc
  | _ => exact Or.inl hc

/-- A step notes down at most the key that the advanced task writes. -/
theorem step_history {label : Label D P R Q} (h : n.step host label = some n') :
    n'.history = n.history ∨
      ∃ k outcome task entry, label = .advance k outcome ∧ n.tasks[k]? = some task ∧
        task.entry host = some entry ∧ n'.history = n.history ++ [entry] := by
  cases label with
  | advance k outcome =>
    obtain ⟨task, m, task', htask, hmove, rfl⟩ := advance_moves h
    rcases hmove.history with hsame | ⟨entry, hentry, happend⟩
    · exact Or.inl hsame
    · exact Or.inr ⟨k, outcome, task, entry, rfl, htask, hentry, happend⟩
  | _ =>
    cases h
    exact Or.inl rfl

/-- A step keeps what the node has sent. -/
theorem step_sent_subset {label : Label D P R Q} (h : n.step host label = some n') :
    n.sent ⊆ n'.sent := by
  cases label with
  | advance k outcome =>
    obtain ⟨task, m, task', -, hmove, rfl⟩ := advance_moves h
    exact hmove.sent_subset
  | _ =>
    cases h
    exact List.Subset.refl _

end Node

end Bqti.Dht
