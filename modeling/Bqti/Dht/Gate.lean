import Bqti.Core.Sha256
import Bqti.Dht.Moves

/-!
# The authentication gate

A request is served in the name of the key that its connection carries. Three tasks write that
key: the handshake with a token, the submission of a proof of work, and the node's own join.
The first two keep the connection that their packet came with. A join writes the key into
whatever connection is registered for the bootstrap address when it has accepted the welcome, so
a key that is found in a connection was proved on that connection only if the connection of a
join stays registered, and the welcome comes over it.
-/

namespace Bqti.Dht

open Bqti.Core

/-- The bootstrap address of a join that has submitted its proof of work and has not yet looked
for the connection to write a key into. -/
def Task.joinsThrough {D R Q : Type*} : Task D R Q → Option SocketAddr
  | .awaitingWelcome bootstrap _ _ | .welcomed bootstrap _ _ _ _ | .trusted bootstrap _ =>
      some bootstrap
  | _ => none

/-- The bootstrap address of a join that waits for the response to a call. -/
def Task.awaitsWelcome {D R Q : Type*} (id : RequestId) : Task D R Q → Option SocketAddr
  | .awaitingWelcome bootstrap _ id' => if id' = id then some bootstrap else none
  | _ => none

/-- The connection that a welcome has come over, and the call it responds to. -/
def Task.welcome {D R Q : Type*} : Task D R Q → Option (Nat × RequestId)
  | .found _ conn (.response id (.welcome _)) => some (conn, id)
  | _ => none

namespace Node

variable {D P S R Q : Type*} [DecidableEq D] {host : Host D P S R} {past : List (Node D P R Q)}
  {n n' : Node D P R Q} {task task' : Task D R Q} {conn : Nat} {key : Key D}

/-- A join was about to submit its proof of work on a connection, and later the submission has
been sent under the number of the call. -/
def Submits (host : Host D P S R) (submitting later : Node D P R Q) (conn : Nat)
    (bootstrap : SocketAddr) (attempt : Nat) (id : RequestId) : Prop :=
  ∃ secret signature, Task.solved bootstrap attempt secret ∈ submitting.tasks ∧
    secret.signature = some signature ∧ submitting.table bootstrap = some conn ∧
    submitting.nextId = id ∧
    (bootstrap, .handShake id (.submitChallange host.key secret.value secret.nonce signature
      secret.attestation host.version)) ∈ later.sent

/-- How a key has been proved on a connection in the past of a node: by a token with a fresh
signature of its owner, by a proof of work, or by the welcome to a join of the node itself, which
it has submitted its own proof of work for on that connection. -/
inductive Proved (host : Host D P S R) (past : List (Node D P R Q)) (conn : Nat) (key : Key D) :
    Prop
  | handshake (before after : Node D P R Q) (src : SocketAddr) (id : RequestId) (token : Token D)
      (signature : Bytes) (challange : UInt32)
      (order : [before, after].Sublist past)
      (received : Task.found src conn (.handShake id (.submitHandshake token signature)) ∈
        before.tasks)
      (current : before.challange host key.pubKey src.ip = some challange)
      (sender : token.sender host.crypto = key)
      (verified : token.verify host.crypto after.now = true)
      (trusted : token.verifyPgp host.crypto after.pgpKeys = true)
      (owned : host.crypto.verify key.pubKey
        (host.crypto.bytes (token.hash host.crypto) ++ be32 challange) signature = true)
  | work (before : Node D P R Q) (src : SocketAddr) (id : RequestId) (senderId : Key D) (value : D)
      (nonce : UInt32) (signature : Bytes) (report : Option R) (version : String)
      (challange : UInt32)
      (earlier : before ∈ past)
      (received : Task.found src conn
        (.handShake id (.submitChallange senderId value nonce signature report version)) ∈
        before.tasks)
      (current : before.challange host key.pubKey src.ip = some challange)
      (sender : Key.new host.crypto senderId.pubKey = key)
      (verified : (PoW.mk value challange nonce (some signature) report difficulty).verify
        host.crypto key.pubKey = some true)
  | join (submitting received accepting binding : Node D P R Q) (bootstrap source : SocketAddr)
      (attempt : Nat) (id : RequestId) (token : Token D)
      (order : [submitting, received, accepting, binding].Sublist past)
      (submitted : Submits host submitting received conn bootstrap attempt id)
      (answered : Task.found source conn (.response id (.welcome token)) ∈ received.tasks)
      (accepted : Task.welcomed bootstrap attempt id source token ∈ accepting.tasks)
      (verified : token.verifyFor host.crypto host.key.pubKey accepting.now = true)
      (trusted : token.verifyPgp host.crypto accepting.pgpKeys = true)
      (bound : binding.table bootstrap = some conn)
      (issuer : Key.new host.crypto token.issuer = key)

/-- The submission of a join on a connection was answered there with a token. -/
def Answered (host : Host D P S R) (past : List (Node D P R Q)) (conn : Nat)
    (bootstrap : SocketAddr) (attempt : Nat) (id : RequestId) (source : SocketAddr)
    (token : Token D) : Prop :=
  ∃ submitting received, [submitting, received].Sublist past ∧
    Submits host submitting received conn bootstrap attempt id ∧
    Task.found source conn (.response id (.welcome token)) ∈ received.tasks

/-- The token of such an answer was accepted. -/
def Accepted (host : Host D P S R) (past : List (Node D P R Q)) (conn : Nat)
    (bootstrap : SocketAddr) (token : Token D) : Prop :=
  ∃ submitting received accepting attempt id source,
    [submitting, received, accepting].Sublist past ∧
    Submits host submitting received conn bootstrap attempt id ∧
    Task.found source conn (.response id (.welcome token)) ∈ received.tasks ∧
    Task.welcomed bootstrap attempt id source token ∈ accepting.tasks ∧
    token.verifyFor host.crypto host.key.pubKey accepting.now = true ∧
    token.verifyPgp host.crypto accepting.pgpKeys = true

/-- What the past of a node says for a task that is on its way to write or to use a key. What it
says for a join is about the connection that is registered for the bootstrap address. -/
def Backed (host : Host D P S R) (past : List (Node D P R Q)) (n : Node D P R Q) :
    Task D R Q → Prop
  | .requested _ conn sender _ _ | .handling _ conn sender _ _ => Proved host past conn sender
  | .challenged src conn id token signature challange =>
      ∃ before ∈ past, Task.found src conn (.handShake id (.submitHandshake token signature)) ∈
        before.tasks ∧
        before.challange host (token.sender host.crypto).pubKey src.ip = some challange
  | .submitted src conn id senderId secret =>
      ∃ before ∈ past, ∃ value nonce signature report version challange,
        Task.found src conn
          (.handShake id (.submitChallange senderId value nonce signature report version)) ∈
          before.tasks ∧
        before.challange host senderId.pubKey src.ip = some challange ∧
        secret = ⟨value, challange, nonce, some signature, report, difficulty⟩
  | .replying _ conn _ _ (some (token, _)) | .replied _ conn token _ =>
      Proved host past conn (token.sender host.crypto)
  | .awaitingWelcome bootstrap attempt id => ∀ conn, n.table bootstrap = some conn →
      (∃ submitting ∈ past, Submits host submitting n conn bootstrap attempt id) ∧
      ∀ source token, n.answers id = some (source, .welcome token) →
        Answered host past conn bootstrap attempt id source token
  | .welcomed bootstrap attempt id source token => ∀ conn, n.table bootstrap = some conn →
      Answered host past conn bootstrap attempt id source token
  | .trusted bootstrap token => ∀ conn, n.table bootstrap = some conn →
      Accepted host past conn bootstrap token
  | .binding _ conn token => Proved host past conn (Key.new host.crypto token.issuer)
  | _ => True

/-- Every key in a connection was proved there, and every task is backed. -/
structure Gated (host : Host D P S R) (past : List (Node D P R Q)) (n : Node D P R Q) : Prop where
  connections : ∀ conn key, n.inboundSender conn = some key → Proved host past conn key
  tasks : ∀ task ∈ n.tasks, Backed host past n task

/-! ## Joins that keep their connection -/

/-- A response with a welcome is handled on the connection that is registered for the bootstrap
address of the join that waits for it. -/
def Arrives (n : Node D P R Q) (task : Task D R Q) : Prop :=
  ∀ welcome ∈ task.welcome, ∀ other ∈ n.tasks, ∀ bootstrap ∈ other.awaitsWelcome welcome.2,
    ∀ conn ∈ n.table bootstrap, conn = welcome.1

/-- A join keeps its connection: none is registered for its bootstrap address between the
submission of its proof of work and the end of the join, and its welcome comes over the
connection that is registered there. -/
def Steady (n : Node D P R Q) : Label D P R Q → Prop
  | .connect addr => ∀ task ∈ n.tasks, task.joinsThrough ≠ some addr
  | .advance k _ => ∀ task ∈ n.tasks[k]?, n.Arrives task
  | _ => True

omit [DecidableEq D] in
instance (n : Node D P R Q) (task : Task D R Q) : Decidable (n.Arrives task) :=
  inferInstanceAs (Decidable (∀ welcome ∈ task.welcome, ∀ other ∈ n.tasks,
    ∀ bootstrap ∈ other.awaitsWelcome welcome.2, ∀ conn ∈ n.table bootstrap, conn = welcome.1))

omit [DecidableEq D] in
instance (n : Node D P R Q) : (a : Label D P R Q) → Decidable (n.Steady a)
  | .connect addr => inferInstanceAs (Decidable (∀ task ∈ n.tasks, task.joinsThrough ≠ some addr))
  | .advance k _ => inferInstanceAs (Decidable (∀ task ∈ n.tasks[k]?, n.Arrives task))
  | .packet _ _ | .join _ | .authenticate _ _ | .clock _ | .renewSalt _ | .loadKeys _
  | .disconnect _ => .isTrue trivial

/-! ## What stays -/

omit [DecidableEq D] in
/-- A submission that has been sent has been sent. -/
theorem Submits.later {submitting later later' : Node D P R Q} {bootstrap : SocketAddr}
    {attempt : Nat} {id : RequestId} (h : Submits host submitting later conn bootstrap attempt id)
    (hsent : later.sent ⊆ later'.sent) :
    Submits host submitting later' conn bootstrap attempt id := by
  obtain ⟨secret, signature, hsolved, hsigned, htable, hid, hmem⟩ := h
  exact ⟨secret, signature, hsolved, hsigned, htable, hid, hsent hmem⟩

/-- What was proved stays proved. -/
theorem Proved.later (h : Proved host past conn key) (n : Node D P R Q) :
    Proved host (past ++ [n]) conn key := by
  have hsub : past.Sublist (past ++ [n]) := List.sublist_append_left past [n]
  cases h with
  | handshake before after src id token signature challange order received current sender
      verified trusted owned =>
    exact .handshake before after src id token signature challange (order.trans hsub) received
      current sender verified trusted owned
  | work before src id senderId value nonce signature report version challange earlier received
      current sender verified =>
    exact .work before src id senderId value nonce signature report version challange
      (hsub.subset earlier) received current sender verified
  | join submitting received accepting binding bootstrap source attempt id token order submitted
      answered accepted verified trusted bound issuer =>
    exact .join submitting received accepting binding bootstrap source attempt id token
      (order.trans hsub) submitted answered accepted verified trusted bound issuer

omit [DecidableEq D] in
/-- What was answered stays answered. -/
theorem Answered.later {bootstrap source : SocketAddr} {attempt : Nat} {id : RequestId}
    {token : Token D} (h : Answered host past conn bootstrap attempt id source token)
    (n : Node D P R Q) : Answered host (past ++ [n]) conn bootstrap attempt id source token := by
  obtain ⟨submitting, received, horder, hrest⟩ := h
  exact ⟨submitting, received, horder.trans (List.sublist_append_left past [n]), hrest⟩

omit [DecidableEq D] in
/-- What was accepted stays accepted. -/
theorem Accepted.later {bootstrap : SocketAddr} {token : Token D}
    (h : Accepted host past conn bootstrap token) (n : Node D P R Q) :
    Accepted host (past ++ [n]) conn bootstrap token := by
  obtain ⟨submitting, received, accepting, attempt, id, source, horder, hrest⟩ := h
  exact ⟨submitting, received, accepting, attempt, id, source,
    horder.trans (List.sublist_append_left past [n]), hrest⟩

omit [DecidableEq D] in
/-- The present state follows every state of the past. -/
private theorem sublist_present {states : List (Node D P R Q)} (h : states.Sublist past) :
    (states ++ [n]).Sublist (past ++ [n]) :=
  h.append (List.Sublist.refl [n])

/-- What backs a task keeps backing it, if no connection is registered for the bootstrap address
of a join, and the answers that have come for it have come over its connection. -/
theorem Backed.later (h : Backed host past n task) (hsent : n.sent ⊆ n'.sent)
    (htable : ∀ bootstrap, task.joinsThrough = some bootstrap → ∀ conn,
      n'.table bootstrap = some conn → n.table bootstrap = some conn)
    (hanswers : ∀ bootstrap id, task.awaitsWelcome id = some bootstrap → ∀ conn,
      n.table bootstrap = some conn → ∀ source token,
      n'.answers id = some (source, .welcome token) →
      n.answers id = some (source, .welcome token) ∨
        Task.found source conn (.response id (.welcome token)) ∈ n.tasks) :
    Backed host (past ++ [n]) n' task := by
  have hsub : past ⊆ past ++ [n] := List.subset_append_left past [n]
  cases task with
  | requested | handling | replied | binding => exact Proved.later h n
  | replying src conn id response grant =>
    cases grant with
    | none => trivial
    | some grant => exact Proved.later h n
  | challenged =>
    obtain ⟨before, hb, hrest⟩ := h
    exact ⟨before, hsub hb, hrest⟩
  | submitted =>
    obtain ⟨before, hb, hrest⟩ := h
    exact ⟨before, hsub hb, hrest⟩
  | awaitingWelcome bootstrap attempt id =>
    intro conn hconn
    have hold := htable bootstrap rfl conn hconn
    obtain ⟨⟨submitting, hmem, hsubmits⟩, hanswered⟩ := h conn hold
    refine ⟨⟨submitting, hsub hmem, hsubmits.later hsent⟩, fun source token ha => ?_⟩
    rcases hanswers bootstrap id (if_pos rfl) conn hold source token ha with ha | hfound
    · exact (hanswered source token ha).later n
    · exact ⟨submitting, n, sublist_present (List.singleton_sublist.mpr hmem), hsubmits, hfound⟩
  | welcomed bootstrap attempt id source token =>
    exact fun conn hconn => (h conn (htable bootstrap rfl conn hconn)).later n
  | trusted bootstrap token =>
    exact fun conn hconn => (h conn (htable bootstrap rfl conn hconn)).later n
  | _ => trivial

/-! ## One move -/

/-- A task that writes a key is backed by a proof of it. -/
theorem Backed.entry {entry : Authenticated D} (h : Backed host past n task)
    (hentry : task.entry host = some entry) : Proved host past entry.conn entry.key := by
  cases task with
  | replied src conn token proof =>
    cases hentry
    exact h
  | binding bootstrap conn token =>
    cases hentry
    exact h
  | _ => exact absurd hentry (by simp [Task.entry])

/-- A token is issued only to a key that has proved its work. -/
theorem submitted_proved {src : SocketAddr} {id : RequestId} {senderId : Key D} {secret : PoW D R}
    {manifest : Option Bytes} {token : Token D}
    (hback : Backed host past n (.submitted src conn id senderId secret : Task D R Q))
    (hissue : issueToken host.crypto host.identity host.verifyReport manifest n.now
      senderId.pubKey secret = some (.ok token)) :
    Proved host past conn (token.sender host.crypto) := by
  obtain ⟨before, hb, value, nonce, signature, report, version, challange, hfound, hc, rfl⟩ :=
    hback
  have hwork := (issueToken_eq_ok hissue).1
  have hpeer := issueToken_peer hissue
  refine .work before src id senderId value nonce signature report version challange hb hfound
    ?_ ?_ ?_
  · simpa only [Token.sender, Key.new, hpeer] using hc
  · simp only [Token.sender, hpeer]
  · simpa only [Token.sender, Key.new, hpeer] using hwork

/-- A move leads from a backed task to a backed task. -/
theorem Moves.backed (h : Moves host n task n' task') (hn : Gated host past n)
    (hmem : task ∈ n.tasks) : Backed host (past ++ [n]) n' task' := by
  have hlast : n ∈ past ++ [n] := List.mem_append_right _ (List.mem_singleton_self n)
  have hback := hn.tasks task hmem
  cases h with
  | requested auth => exact (hn.connections _ _ auth).later n
  | challenged current => exact ⟨n, hlast, hmem, current⟩
  | submitted current => exact ⟨n, hlast, _, _, _, _, _, _, hmem, current, rfl⟩
  | served | replied => exact Proved.later hback n
  | owned verified trusted owner =>
    obtain ⟨before, hb, hfound, hc⟩ := hback
    exact .handshake before n _ _ _ _ _ (sublist_present (List.singleton_sublist.mpr hb)) hfound
      hc rfl verified trusted owner
  | issued issue => exact (submitted_proved hback issue).later n
  | @submitting bootstrap attempt secret signature _ signed _ =>
    intro conn hconn
    refine ⟨⟨n, hlast, secret, signature, hmem, signed, hconn, rfl, ?_⟩, fun source token ha => ?_⟩
    · exact List.mem_append_right _ (List.mem_singleton_self _)
    · simp [send, register] at ha
  | welcomed answer =>
    exact fun conn hconn => ((hback conn hconn).2 _ _ answer).later n
  | trusted verified pgp =>
    intro conn hconn
    obtain ⟨submitting, received, horder, hsubmits, hfound⟩ := hback conn hconn
    exact ⟨submitting, received, n, _, _, _, sublist_present horder, hsubmits, hfound, hmem,
      verified, pgp⟩
  | binding table =>
    obtain ⟨submitting, received, accepting, attempt, id, source, horder, hsubmits, hfound,
      hwelcomed, hverify, hpgp⟩ := hback _ table
    exact .join submitting received accepting n _ source attempt id _ (sublist_present horder)
      hsubmits hfound hwelcomed hverify hpgp table rfl
  | _ => trivial

/-! ## Every run whose joins keep their connections -/

/-- Every step that lets joins keep their connections keeps the gate. -/
theorem Gated.step {a : Label D P R Q} (hn : Gated host past n) (hsteady : n.Steady a)
    (h : n.step host a = some n') : Gated host (past ++ [n]) n' := by
  have hold : ∀ c key, n.inboundSender c = some key → Proved host (past ++ [n]) c key :=
    fun c key hc => (hn.connections c key hc).later n
  -- A step that dispatches no response and registers no connection for a join backs all tasks.
  have htasks : ∀ m : Node D P R Q, m.sent = n.sent → m.answers = n.answers →
      (∀ task ∈ n.tasks, ∀ bootstrap, task.joinsThrough = some bootstrap → ∀ conn,
        m.table bootstrap = some conn → n.table bootstrap = some conn) →
      ∀ task ∈ n.tasks, Backed host (past ++ [n]) m task :=
    fun m hsent hanswers htable task ht => (hn.tasks task ht).later (hsent ▸ List.Subset.refl _)
      (htable task ht) fun _ _ _ _ _ _ _ ha => Or.inl (hanswers ▸ ha)
  have hsame : ∀ m : Node D P R Q, m.table = n.table → ∀ task ∈ n.tasks, ∀ bootstrap,
      task.joinsThrough = some bootstrap → ∀ conn,
      m.table bootstrap = some conn → n.table bootstrap = some conn :=
    fun m hm _ _ _ _ _ hc => hm ▸ hc
  have hspawn : ∀ new : Task D R Q, (∀ m, Backed host (past ++ [n]) m new) →
      Gated host (past ++ [n]) { n with tasks := n.tasks ++ [new] } := by
    intro new hnew
    refine ⟨hold, forall_mem_concat ?_ (hnew _)⟩
    exact htasks _ rfl rfl (hsame _ rfl)
  cases a with
  | packet src packet =>
    cases h
    exact hspawn _ fun _ => trivial
  | join bootstrap =>
    cases h
    exact hspawn _ fun _ => trivial
  | authenticate target addr =>
    cases h
    exact hspawn _ fun _ => trivial
  | clock now | renewSalt salt | loadKeys pgpKeys =>
    cases h
    exact ⟨hold, htasks _ rfl rfl (hsame _ rfl)⟩
  | disconnect addr =>
    cases h
    refine ⟨hold, htasks _ rfl rfl fun task _ bootstrap _ c hc => ?_⟩
    simp only [Function.update_apply] at hc
    split at hc
    · exact absurd hc (by simp)
    · exact hc
  | connect addr =>
    cases h
    refine ⟨fun c key hc => hold c key (inboundSender_connect hc),
      htasks _ rfl rfl fun task ht bootstrap hjoins c hc => ?_⟩
    simp only [Function.update_apply] at hc
    split at hc
    · rename_i hsame
      exact absurd (hsame ▸ hjoins) (hsteady task ht)
    · exact hc
  | advance k outcome =>
    obtain ⟨task, m, task', htask, hmove, rfl⟩ := advance_moves h
    have hmem : task ∈ n.tasks := List.mem_of_getElem? htask
    refine ⟨fun c key hc => ?_, forall_mem_set (fun other hother => ?_) (hmove.backed hn hmem)⟩
    · rcases hmove.inboundSender (c := c) hc with
        hsame | ⟨entry, hentry, -, rfl, rfl⟩
      · exact hold c key hsame
      · exact ((hn.tasks task hmem).entry hentry).later n
    · refine (hn.tasks other hother).later hmove.sent_subset
        (fun _ _ _ hc => hmove.table ▸ hc) fun bootstrap id hawaits conn hconn source token ha => ?_
      refine (hmove.answers ha).imp_right fun ⟨arrived, htask'⟩ => ?_
      subst htask'
      have hsteady' : n.Arrives (.found source arrived (.response id (.welcome token))) :=
        hsteady _ htask
      obtain rfl := hsteady' _ rfl other hother bootstrap hawaits conn hconn
      exact hmem

end Node

/-- An Ed25519 public key of a newcomer. -/
def samplePeer : Bytes :=
  numeralBytes 32 0xd75a980182b10ab7d54bfed3c964073a0ee172f3daa62325af021a68f707511a

/-- An Ed25519 public key of a node. -/
def sampleIssuer : Bytes :=
  numeralBytes 32 0x3d4017c3e843895a92b70aa74d1b7ebc9c982ccf2ec4968cc0cd55f12af4660c

/-- The SHA-256 value with 24 leading zero bits that the newcomer finds. -/
def sampleWork : Bytes :=
  numeralBytes 32 0x000000c31e79d048ec9b69b11838dd6d833411f0034efc85f9d4b8215a4c722a

/-- The newcomer's signature of its proof of work. -/
def sampleWorkSignature : Bytes :=
  numeralBytes 32 0x1b1e5ddd7bdc47363b0caa14b7195a20fcdeee84aa460b682b55554acdf4eeea ++
    numeralBytes 32 0xdb6fb7c186e732bedf4711f5928246d56820ed6d67765f321d03213c66ce8204

/-- The SHA-256 value of the token that the node issues. -/
def sampleTokenHash : Bytes :=
  numeralBytes 32 0xaf0259924c375d6ac106ae12f820d1fc1b3e829e4dd26a2196e25f2f67d0f075

/-- The node's signature of that token. -/
def sampleTokenSignature : Bytes :=
  numeralBytes 32 0xc64cd46322ea8aaf154b9f378aad80c054cb284d3b78f323f3fea030d478d61e ++
    numeralBytes 32 0x4c2c12be60075299987b2943c026c4c5cfee4541b70cbe8a1628c7b897793d03

/-- Where the newcomer connects from. -/
def sampleAddr : SocketAddr := ⟨.ofBytes 10 0 0 2, 4000⟩

/-- The salt of the node. -/
def sampleSalt : Bytes := List.replicate 32 7

/-- SHA-256 and Ed25519 on the values of the run below. -/
def sampleCrypto : Crypto Bytes Unit Unit where
  digest chunks :=
    if chunks.flatten = samplePeer then
      numeralBytes 32 0x21fe31dfa154a261626bf854046fd2271b7bed4b6abe45aa58877ef47f9721b9
    else if chunks.flatten = sampleIssuer then
      numeralBytes 32 0x39f713d0a644253f04529421b9f51b9b08979d08295959c4f3990ee617f5139f
    else if chunks.flatten = samplePeer ++ [10, 0, 0, 2] ++ sampleSalt then
      numeralBytes 32 0xa195e21060821b289351196eff4a48bd9928adc7da4d6a3b48f4e0e73d76bf11
    else if chunks.flatten = samplePeer ++ be32 2710954512 ++ be32 26003408 then sampleWork
    else sampleTokenHash
  bytes := id
  zeros := List.replicate 32 0
  verify pubKey data signature :=
    pubKey == samplePeer && data == sampleWork && signature == sampleWorkSignature
  parseSignature _ := none
  pgpVerify _ _ _ := false

/-- A node that is bound to no swarm. -/
def sampleHost : Host Bytes Unit Unit Unit where
  crypto := sampleCrypto
  identity := ⟨sampleIssuer, fun data => if data = sampleTokenHash then some sampleTokenSignature
    else none, [], none⟩
  verifyReport _ _ _ := false
  version := "0.1.0"

/-- A newcomer submits its proof of work and then sends a request. -/
def sampleRun : List (Label Bytes Unit Unit Unit) :=
  [.clock 1700000000, .connect sampleAddr,
    .packet sampleAddr (.handShake 1 (.submitChallange ⟨[], samplePeer⟩ sampleWork 26003408
      sampleWorkSignature none "0.1.0")),
    .advance 0 {}, .advance 0 {}, .advance 0 {}, .advance 0 {}, .advance 0 {},
    .packet sampleAddr (.request 2 ()), .advance 1 {}, .advance 1 {}, .advance 1 {}]

/-- The bootstrap node's signature of the token that welcomes the node. -/
def welcomeSignature : Bytes :=
  numeralBytes 32 0x07744f04d54ecf04276fb0ccc29d490d0fcf6bb6c1d7bd16fb7472c7e3dd363e ++
    numeralBytes 32 0x160da8426c22189480a24bc2bfe4817902ab995b47716497cde90be1581c560d

/-- The token that welcomes the node, under a certificate that the swarm has signed. -/
def welcomeToken : Token (Vector UInt8 32) where
  swarmId := Vector.replicate 32 9
  peer := samplePeer
  pow := Vector.ofFn fun i => sampleWork.getD i 0
  issuedAt := 1700000000
  expAt := 1700001800
  issuer := sampleIssuer
  issuerCaCert := [48, 130]
  issuerCaCertSig := [194]
  trustLevel := .unattested
  signature := some welcomeSignature

/-- SHA-256, with Ed25519 and the swarm's signature on the values of the runs below. -/
def joinCrypto : Crypto (Vector UInt8 32) Unit Unit where
  digest chunks := Sha256.digest chunks.flatten
  bytes := Vector.toList
  zeros := Vector.replicate 32 0
  verify pubKey data signature :=
    pubKey == sampleIssuer && signature == welcomeSignature && data ==
      numeralBytes 32 0x2d814a3e23ea22e9ca9d2b20b625aee1d74668964a648f5122bb0c99db50a1bc
  parseSignature sig := if sig = [194] then some () else none
  pgpVerify _ _ cert := cert == [48, 130]

/-- The node that joins. -/
def joinHost : Host (Vector UInt8 32) Unit Unit Unit where
  crypto := joinCrypto
  identity := ⟨samplePeer, fun data => if data = sampleWork then some sampleWorkSignature
    else none, [], none⟩
  verifyReport _ _ _ := false
  version := "0.1.0"

/-- The join ends, and a request of the bootstrap node is handled. -/
def sampleRequested : List (Label (Vector UInt8 32) Unit Unit Unit) :=
  [.advance 0 {}, .advance 0 {}, .advance 0 {}, .advance 0 {},
    .packet sampleAddr (.request 2 ()), .advance 3 {}, .advance 3 {}, .advance 3 {}]

end Bqti.Dht
