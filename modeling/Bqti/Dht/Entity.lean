import Bqti.Dht.Network
import Bqti.Dht.Gate

/-!
# Entity authentication

An honest node vouches for a key only after it has checked a signature of it. If the signature
reached it from an honest node, it is that node's own; from the adversary it could only be one
that an honest node had sent there. So handshakes that are kept apart authenticate the peer.
They are not kept apart by the program: the signed bytes name neither the verifier nor the
connection, and a node signs every nonce that it is offered.
-/

namespace Bqti.Dht.Network

open Bqti.Core

variable {H D P S R Q : Type*}

/-! ## What honest nodes hold and send -/

/-- The proofs that an honest node sends are its own. -/
def Owns (e : Network H D P S R) (h : H) : DhtRequest D R → Prop
  | .submitHandshake token signature => token.peer = e.pubKey h ∧
      ∃ nonce, (e.identity h).signer (e.crypto.bytes (token.hash e.crypto) ++ be32 nonce) =
        some signature
  | .submitChallange senderId value _ signature _ _ => senderId.pubKey = e.pubKey h ∧
      (e.identity h).signer (e.crypto.bytes value) = some signature
  | _ => True

/-- An honest node that is answered has asked. -/
def Asked (e : Network H D P S R) (wire : Wire H D R Q) (h : H) (addr : SocketAddr)
    (id : RequestId) : Prop :=
  ∀ other, addr = e.addr other → ∃ request, (e.addr h, .handShake id request) ∈ wire other

/-- A token that an honest node welcomes a peer with is issued by the node. -/
def Issued (e : Network H D P S R) (h : H) (response : DhtResponse D) : Prop :=
  ∀ token, response = .welcome token → token.issuer = e.pubKey h ∧
    ∃ signature, token.signature = some signature ∧
      (e.identity h).signer (e.crypto.bytes (token.hash e.crypto)) = some signature

/-- A key may be written into a connection to an address: its signature is good, and an honest
owner is at the address and gave the proof. -/
structure Vouched (e : Network H D P S R) (wire : Wire H D R Q) (h : H) (addr : SocketAddr)
    (key : Key D) (proof : Proof D) : Prop where
  valid : ∃ signature, proof.signature = some signature ∧
    e.crypto.verify key.pubKey (proof.signed e.crypto) signature = true
  owner : ∀ owner, key.pubKey = e.pubKey owner →
    addr = e.addr owner ∧ e.Gave wire owner h proof

/-- What holds of the data of a task. -/
def Credible (e : Network H D P S R) (wire : Wire H D R Q) (h : H) (n : Node D P R Q) :
    Task D R Q → Prop
  | .arrived src packet => Delivered e wire h src packet
  | .found src conn packet => n.remote conn = some src ∧ Delivered e wire h src packet
  | .challenged src conn id token signature _ => n.remote conn = some src ∧
      Delivered e wire h src (.handShake id (.submitHandshake token signature))
  | .submitted src conn id senderId secret => n.remote conn = some src ∧
      ∃ signature report version, secret.signature = some signature ∧
        Delivered e wire h src (.handShake id
          (.submitChallange senderId secret.value secret.nonce signature report version))
  | .replying src conn id response grant => Asked e wire h src id ∧ Issued e h response ∧
      ∀ token proof, grant = some (token, proof) → n.remote conn = some src ∧
        Vouched e wire h src (token.sender e.crypto) proof
  | .replied src conn token proof => n.remote conn = some src ∧
      Vouched e wire h src (token.sender e.crypto) proof
  | .solved _ _ secret => ∀ signature, secret.signature = some signature →
      (e.identity h).signer (e.crypto.bytes secret.value) = some signature
  | .awaitingWelcome bootstrap _ id => ∃ request, (bootstrap, .handShake id request) ∈ n.sent
  | .welcomed bootstrap _ id source token =>
      (∃ request, (bootstrap, .handShake id request) ∈ n.sent) ∧
        Delivered e wire h source (.response id (.welcome token))
  | .trusted bootstrap token => token.peer = e.pubKey h ∧
      Vouched e wire h bootstrap (Key.new e.crypto token.issuer) (.welcome token)
  | .binding bootstrap conn token => token.peer = e.pubKey h ∧ n.remote conn = some bootstrap ∧
      Vouched e wire h bootstrap (Key.new e.crypto token.issuer) (.welcome token)
  | .storing token | .greeting _ _ token | .awaitingNonce _ _ token _ | .signing _ _ token _ =>
      token.peer = e.pubKey h
  | .presenting _ _ token signature => Owns e h (.submitHandshake token signature)
  | _ => True

/-- What holds of an honest node. -/
structure Honest (e : Network H D P S R) (wire : Wire H D R Q) (h : H) (n : Node D P R Q) :
    Prop where
  token : ∀ token, n.token = some token → token.peer = e.pubKey h
  table : ∀ addr conn, n.table addr = some conn → n.remote conn = some addr
  tasks : ∀ task ∈ n.tasks, Credible e wire h n task
  answers : ∀ id source payload, n.answers id = some (source, payload) →
    Delivered e wire h source (.response id payload)
  noted : ∀ conn key, n.inboundSender conn = some key →
    ∃ entry ∈ n.history, entry.conn = conn ∧ entry.key = key
  history : ∀ entry ∈ n.history, n.remote entry.conn = some entry.addr ∧
    Vouched e wire h entry.addr entry.key entry.proof
  requests : ∀ addr id request, (addr, .handShake id request) ∈ n.sent →
    Owns e h request ∧ id < n.nextId
  unique : ∀ addr addr' id request request', (addr, .handShake id request) ∈ n.sent →
    (addr', .handShake id request') ∈ n.sent → addr = addr'
  responses : ∀ addr id response, (addr, .response id response) ∈ n.sent →
    Asked e wire h addr id ∧ Issued e h response

variable {e : Network H D P S R} {wire wire' : Wire H D R Q} {h : H} {n n' : Node D P R Q}
  {task task' : Task D R Q} {net : H → Node D P R Q}

/-! ## Growth -/

/-- Who has asked, has asked. -/
theorem Asked.mono (hsub : ∀ h, wire h ⊆ wire' h) {addr : SocketAddr} {id : RequestId}
    (ha : Asked e wire h addr id) : Asked e wire' h addr id := by
  intro other haddr
  obtain ⟨request, hr⟩ := ha other haddr
  exact ⟨request, hsub other hr⟩

/-- Who is vouched for stays so. -/
theorem Vouched.mono (hsub : ∀ h, wire h ⊆ wire' h) {addr : SocketAddr} {key : Key D}
    {proof : Proof D} (hv : Vouched e wire h addr key proof) :
    Vouched e wire' h addr key proof := by
  refine ⟨hv.valid, fun owner hk => ?_⟩
  obtain ⟨haddr, hgave⟩ := hv.owner owner hk
  exact ⟨haddr, hgave.mono hsub⟩

/-- A task stays credible while its node keeps its connections and what it has sent. -/
theorem Credible.mono (hsub : ∀ h, wire h ⊆ wire' h)
    (hremote : ∀ conn addr, n.remote conn = some addr → n'.remote conn = some addr)
    (hsent : n.sent ⊆ n'.sent) (ht : Credible e wire h n task) : Credible e wire' h n' task := by
  cases task with
  | arrived src packet => exact Delivered.mono hsub ht
  | found src conn packet => exact ⟨hremote _ _ ht.1, ht.2.mono hsub⟩
  | challenged src conn id token signature challange => exact ⟨hremote _ _ ht.1, ht.2.mono hsub⟩
  | submitted src conn id senderId secret =>
    obtain ⟨hr, signature, report, version, hs, hd⟩ := ht
    exact ⟨hremote _ _ hr, signature, report, version, hs, hd.mono hsub⟩
  | replying src conn id response grant =>
    obtain ⟨hasked, hissued, hgrant⟩ := ht
    refine ⟨hasked.mono hsub, hissued, fun token proof hg => ?_⟩
    obtain ⟨hr, hv⟩ := hgrant token proof hg
    exact ⟨hremote _ _ hr, hv.mono hsub⟩
  | replied src conn token proof => exact ⟨hremote _ _ ht.1, ht.2.mono hsub⟩
  | awaitingWelcome bootstrap attempt id =>
    obtain ⟨request, hr⟩ := ht
    exact ⟨request, hsent hr⟩
  | welcomed bootstrap attempt id source token =>
    obtain ⟨⟨request, hr⟩, hd⟩ := ht
    exact ⟨⟨request, hsent hr⟩, hd.mono hsub⟩
  | trusted bootstrap token => exact ⟨ht.1, ht.2.mono hsub⟩
  | binding bootstrap conn token => exact ⟨ht.1, hremote _ _ ht.2.1, ht.2.2.mono hsub⟩
  | _ => exact ht

/-- A node stays honest when others send. -/
theorem Honest.mono (hsub : ∀ h, wire h ⊆ wire' h) (hn : Honest e wire h n) :
    Honest e wire' h n where
  token := hn.token
  table := hn.table
  tasks := fun task ht => (hn.tasks task ht).mono hsub (fun _ _ => id) fun _ => id
  answers := fun id source payload ha => (hn.answers id source payload ha).mono hsub
  noted := hn.noted
  history := fun entry he => ⟨(hn.history entry he).1, (hn.history entry he).2.mono hsub⟩
  requests := hn.requests
  unique := hn.unique
  responses := fun addr id response hr =>
    ⟨(hn.responses addr id response hr).1.mono hsub, (hn.responses addr id response hr).2⟩

/-! ## The three checks -/

/-- A packet with a good signature of an honest key was sent by its owner, if no honest node
sends such packets for another and the adversary does not relay them. -/
theorem sent_by_owner (lawful : e.Lawful) {src : SocketAddr} {packet : DhtPacket D R Q}
    {pubKey data signature : Bytes} {owner : H} (hd : Delivered e wire h src packet)
    (hown : ∀ sender, (e.addr h, packet) ∈ wire sender → pubKey = e.pubKey sender)
    (hs : signature ∈ packet.signatures) (hv : e.crypto.verify pubKey data signature = true)
    (hu : e.Foreign src → e.Owned pubKey → ¬ e.Leaked wire signature)
    (hk : pubKey = e.pubKey owner) : src = e.addr owner ∧ (e.addr h, packet) ∈ wire owner := by
  cases hd with
  | request => exact absurd hs List.not_mem_nil
  | @honest sender _ sent =>
    have he : sender = owner := lawful.pubKey_injective ((hown sender sent).symm.trans hk)
    subst he
    exact ⟨rfl, sent⟩
  | foreign outside crafted =>
    have hleaked := crafted signature hs owner data (hk ▸ hv)
    exact absurd hleaked (hu outside ⟨owner, hk⟩)

/-- An ownership signature is good for the key of a token. -/
theorem vouched_ownership (lawful : e.Lawful) (hall : ∀ h, Honest e (Network.wire net) h (net h))
    {src : SocketAddr} {id : RequestId} {token : Token D} {signature : Bytes}
    {challange : UInt32}
    (hd : Delivered e (Network.wire net) h src
      (.handShake id (.submitHandshake token signature)))
    (hv : e.crypto.verify token.peer
      (e.crypto.bytes (token.hash e.crypto) ++ be32 challange) signature = true)
    (hu : e.Foreign src → e.Owned token.peer →
      ¬ e.Leaked (Network.wire net) signature) :
    Vouched e (Network.wire net) h src (token.sender e.crypto)
      (.ownership token signature challange) := by
  have hrequests := fun sender => (hall sender).requests (e.addr h) id
    (.submitHandshake token signature)
  refine ⟨⟨signature, rfl, hv⟩, fun owner hk => ?_⟩
  obtain ⟨haddr, hsent⟩ := sent_by_owner lawful hd
    (fun sender hsent => (hrequests sender hsent).1.1) (List.mem_cons_self ..) hv hu hk
  exact ⟨haddr, (hrequests owner hsent).1.2, id, hsent⟩

/-- A signed proof of work is good for its key. -/
theorem vouched_work (lawful : e.Lawful) (hall : ∀ h, Honest e (Network.wire net) h (net h))
    {src : SocketAddr} {id : RequestId} {senderId : Key D} {value : D} {nonce : UInt32}
    {signature : Bytes} {report : Option R} {version : String} {key : Key D}
    (hkey : key.pubKey = senderId.pubKey)
    (hd : Delivered e (Network.wire net) h src (.handShake id
      (.submitChallange senderId value nonce signature report version)))
    (hv : e.crypto.verify senderId.pubKey (e.crypto.bytes value) signature = true)
    (hu : e.Foreign src → e.Owned senderId.pubKey →
      ¬ e.Leaked (Network.wire net) signature) :
    Vouched e (Network.wire net) h src key (.work senderId value nonce signature) := by
  have hrequests := fun sender => (hall sender).requests (e.addr h) id
    (.submitChallange senderId value nonce signature report version)
  refine ⟨⟨signature, rfl, hkey ▸ hv⟩, fun owner hk => ?_⟩
  obtain ⟨haddr, hsent⟩ := sent_by_owner lawful hd
    (fun sender hsent => (hrequests sender hsent).1.1) (List.mem_singleton_self signature) hv hu
    (hkey.symm.trans hk)
  exact ⟨haddr, (hrequests owner hsent).1.2, id, report, version, hsent⟩

/-- A token that welcomes a node is good for its issuer. -/
theorem vouched_welcome (lawful : e.Lawful) (hall : ∀ h, Honest e (Network.wire net) h (net h))
    {bootstrap source : SocketAddr} {id : RequestId} {token : Token D} {signature : Bytes}
    (hasked : ∃ request, (bootstrap, .handShake id request) ∈ (net h).sent)
    (hd : Delivered e (Network.wire net) h source (.response id (.welcome token)))
    (hs : token.signature = some signature)
    (hv : e.crypto.verify token.issuer (e.crypto.bytes (token.hash e.crypto)) signature = true)
    (hu : e.Foreign source → e.Owned token.issuer →
      ¬ e.Leaked (Network.wire net) signature) :
    Vouched e (Network.wire net) h bootstrap (Key.new e.crypto token.issuer) (.welcome token) := by
  have hresponses := fun sender => (hall sender).responses (e.addr h) id (.welcome token)
  have hmem : signature ∈ token.signature.toList := Option.mem_toList.mpr hs
  refine ⟨⟨signature, hs, hv⟩, fun owner hk => ?_⟩
  obtain ⟨-, hsent⟩ := sent_by_owner lawful hd
    (fun sender hsent => ((hresponses sender hsent).2 token rfl).1) hmem hv hu hk
  obtain ⟨hanswers, hissued⟩ := hresponses owner hsent
  -- The response answers the call of this number, and only one call has it.
  obtain ⟨request, hrequest⟩ := hasked
  obtain ⟨request', hrequest'⟩ := hanswers h rfl
  exact ⟨(hall h).unique _ _ _ _ _ hrequest hrequest', (hissued token rfl).2, id, hsent⟩

/-! ## One move -/

/-- Only who has asked is answered. -/
theorem asked_of_delivered (lawful : e.Lawful) {src : SocketAddr} {id : RequestId}
    {request : DhtRequest D R} (hd : Delivered e wire h src (.handShake id request)) :
    Asked e wire h src id := by
  intro other haddr
  cases hd with
  | @honest sender _ sent =>
    have he : sender = other := lawful.addr_injective haddr
    exact ⟨request, he ▸ sent⟩
  | foreign outside crafted => exact absurd haddr (outside other)

/-- A node calls in its own name. -/
theorem Credible.calls {addr : SocketAddr} {request : DhtRequest D R}
    (ht : Credible e wire h n task) (hc : task.calls (e.host h) = some (addr, request)) :
    Owns e h request := by
  cases task with
  | joining | greeting =>
    cases hc
    trivial
  | solved bootstrap attempt secret =>
    obtain ⟨signature, hs, he⟩ := Option.map_eq_some_iff.mp hc
    cases he
    exact ⟨rfl, ht signature hs⟩
  | presenting target addr token signature =>
    cases hc
    exact ht
  | _ => exact absurd hc (by simp [Task.calls])

/-- What a task writes into a connection is vouched for. -/
theorem Credible.entry {entry : Authenticated D} (ht : Credible e wire h n task)
    (hentry : task.entry (e.host h) = some entry) :
    n.remote entry.conn = some entry.addr ∧
      Vouched e wire h entry.addr entry.key entry.proof := by
  cases task with
  | replied src conn token proof =>
    cases hentry
    exact ht
  | binding bootstrap conn token =>
    cases hentry
    exact ht.2
  | _ => exact absurd hentry (by simp [Task.entry])

section Moves

variable [DecidableEq D]

/-- The checks of a step that passes from a check to a reply or a trusted token. -/
theorem Separate.unleaked {p : Presented} {signature : Bytes} (hsep : Separate e net h task)
    (hpass : (net h).passes (e.host h) task = true) (hp : task.presents = some p)
    (hs : p.signature = some signature) (hforeign : e.Foreign p.src)
    (howner : e.Owned p.pubKey) : ¬ e.Leaked (Network.wire net) signature :=
  hsep.unrelayed hpass p hp hforeign howner signature hs

/-- A move leads from a credible task to a credible task. -/
theorem moves_credible (lawful : e.Lawful) (hall : ∀ h, Honest e (Network.wire net) h (net h))
    (hmove : Node.Moves (e.host h) (net h) task n' task') (hmem : task ∈ (net h).tasks)
    (hsep : Separate e net h task) : Credible e (Network.wire net) h n' task' := by
  have ht := (hall h).tasks task hmem
  cases hmove with
  | lookedUp table => exact ⟨(hall h).table _ _ table, ht⟩
  | asked plain =>
    exact ⟨asked_of_delivered lawful ht.2, fun token htoken => absurd htoken (plain token),
      fun token proof hgrant => by simp at hgrant⟩
  | challenged current => exact ht
  | submitted current => exact ⟨ht.1, _, _, _, rfl, ht.2⟩
  | owned verified trusted owner =>
    have hunleaked := hsep.unleaked
      (Bool.and_eq_true_iff.mpr ⟨Bool.and_eq_true_iff.mpr ⟨verified, trusted⟩, owner⟩) rfl rfl
    refine ⟨asked_of_delivered lawful ht.2, fun token htoken => by simp at htoken, ?_⟩
    intro token proof hgrant
    cases hgrant
    exact ⟨ht.1, vouched_ownership lawful hall ht.2 owner hunleaked⟩
  | issued issue =>
    obtain ⟨hremote, signature, report, version, hs, hd⟩ := ht
    have hwork := (issueToken_eq_ok issue).1
    obtain ⟨signature', hs', hv⟩ := PoW.signed_of_verify hwork
    have hsame : signature' = signature := Option.some.inj (hs'.symm.trans hs)
    subst hsame
    have hunleaked := hsep.unleaked (beq_iff_eq.mpr hwork) rfl hs
    refine ⟨asked_of_delivered lawful hd, fun token htoken => ?_, fun token proof hgrant => ?_⟩
    · cases htoken
      exact ⟨issueToken_issuer issue, issueToken_signature issue⟩
    · cases hgrant
      rw [hs, Option.getD_some]
      exact ⟨hremote, vouched_work lawful hall (issueToken_peer issue) hd hv hunleaked⟩
  | replied => exact ht.2.2 _ _ rfl
  | solved signed sign =>
    intro signature hs
    rw [signed] at hs
    exact (Option.some.inj hs) ▸ sign
  | submitting signed => exact ⟨_, List.mem_append_right _ (List.mem_singleton_self _)⟩
  | welcomed answer => exact ⟨ht, (hall h).answers _ _ _ answer⟩
  | trusted verified pgp =>
    obtain ⟨hpeer, hverify⟩ := Token.verifyFor_eq_true_iff.mp verified
    obtain ⟨-, signature, hs, hv⟩ := Token.verify_eq_true_iff.mp hverify
    have hunleaked := hsep.unleaked (Bool.and_eq_true_iff.mpr ⟨verified, pgp⟩) rfl hs
    exact ⟨hpeer, vouched_welcome lawful hall ht.1 ht.2 hs hv hunleaked⟩
  | unbound => exact ht.1
  | binding table =>
    refine ⟨ht.1, ?_, ht.2⟩
    rw [Node.remote_setOutboundAuthenticated]
    exact (hall h).table _ _ table
  | bound => exact ht.1
  | greeting best =>
    have hstored := (Option.filter_eq_some_iff.mp best).1
    exact (hall h).token _ hstored
  | greeted => exact ht
  | signing => exact ht
  | signed sign => exact ⟨ht, _, sign⟩
  | _ => trivial

/-- A move of one of its tasks keeps a node honest. -/
theorem Honest.advance (lawful : e.Lawful) (hall : ∀ h, Honest e (Network.wire net) h (net h))
    (hmove : Node.Moves (e.host h) (net h) task n' task') (hmem : task ∈ (net h).tasks)
    (hsep : Separate e net h task) (hid : (net h).nextId + 1 < 2 ^ 64) (k : Nat) :
    Honest e (Network.wire net) h { n' with tasks := (net h).tasks.set k task' } := by
  have hn := hall h
  have ht := hn.tasks task hmem
  have hremote : ∀ conn addr, (net h).remote conn = some addr → n'.remote conn = some addr :=
    fun conn addr hr => (hmove.remote conn).trans hr
  have hmod : ((net h).nextId + 1) % 2 ^ 64 = (net h).nextId + 1 := Nat.mod_eq_of_lt hid
  constructor
  case token =>
    intro token htoken
    rcases hmove.token with hsame | ⟨stored, rfl, hnew⟩
    · exact hn.token token (hsame ▸ htoken)
    · exact (Option.some.inj (hnew.symm.trans htoken)) ▸ ht
  case table =>
    intro addr conn htable
    exact hremote _ _ (hn.table addr conn (hmove.table ▸ htable))
  case tasks =>
    intro other hother
    rcases List.mem_or_eq_of_mem_set hother with hold | rfl
    · exact (hn.tasks other hold).mono (fun _ _ => id) hremote hmove.sent_subset
    · have hnew := moves_credible lawful hall hmove hmem hsep
      exact hnew.mono (fun _ _ => id) (fun _ _ => id) fun _ => id
  case answers =>
    intro id source payload ha
    rcases hmove.answers ha with hold | ⟨conn, rfl⟩
    · exact hn.answers id source payload hold
    · exact ht.2
  case noted =>
    intro conn key hkey
    rcases hmove.inboundSender hkey with hold | ⟨entry, -, hhistory, hentry⟩
    · obtain ⟨entry, he, hentry⟩ := hn.noted conn key hold
      rcases hmove.history with hsame | ⟨new, -, hnew⟩
      · exact ⟨entry, hsame ▸ he, hentry⟩
      · exact ⟨entry, hnew ▸ List.mem_append_left _ he, hentry⟩
    · exact ⟨entry, hhistory ▸ List.mem_append_right _ (List.mem_singleton_self _), hentry⟩
  case history =>
    intro entry he
    have hcase : entry ∈ (net h).history ∨ task.entry (e.host h) = some entry := by
      rcases hmove.history with hsame | ⟨new, hnew, happend⟩
      · exact Or.inl (hsame ▸ he)
      · rcases List.mem_append.mp (happend ▸ he) with hold | hlast
        · exact Or.inl hold
        · exact Or.inr (List.mem_singleton.mp hlast ▸ hnew)
    rcases hcase with hold | hnew
    · exact ⟨hremote _ _ (hn.history entry hold).1, (hn.history entry hold).2⟩
    · exact ⟨hremote _ _ (ht.entry hnew).1, (ht.entry hnew).2⟩
  case requests =>
    intro addr id request hr
    rcases hmove.request_mem hr with hold | ⟨hcalls, rfl, hnext⟩
    · obtain ⟨howns, hlt⟩ := hn.requests addr id request hold
      refine ⟨howns, ?_⟩
      rcases hmove.nextId with hsame | hnext
      · exact hsame ▸ hlt
      · exact lt_of_lt_of_eq (Nat.lt_succ_of_lt hlt) (hmod.symm.trans hnext.symm)
    · exact ⟨ht.calls hcalls, lt_of_lt_of_eq (Nat.lt_succ_self _) (hmod.symm.trans hnext.symm)⟩
  case unique =>
    intro addr addr' id request request' hr hr'
    rcases hmove.request_mem hr with hold | ⟨hcalls, rfl, -⟩
    · rcases hmove.request_mem hr' with hold' | ⟨-, rfl, -⟩
      · exact hn.unique _ _ _ _ _ hold hold'
      · exact absurd (hn.requests _ _ _ hold).2 (lt_irrefl _)
    · rcases hmove.request_mem hr' with hold' | ⟨hcalls', -, -⟩
      · exact absurd (hn.requests _ _ _ hold').2 (lt_irrefl _)
      · exact congrArg Prod.fst (Option.some.inj (hcalls.symm.trans hcalls'))
  case responses =>
    intro addr id response hr
    rcases hmove.response_mem hr with hold | ⟨conn, grant, rfl⟩
    · exact hn.responses addr id response hold
    · exact ⟨ht.1, ht.2.1⟩

end Moves

/-! ## Every run -/

/-- A node stays honest when it starts a credible task. -/
theorem Honest.spawn (hn : Honest e wire h n) (ht : Credible e wire h n task) :
    Honest e wire h { n with tasks := n.tasks ++ [task] } where
  token := hn.token
  table := hn.table
  tasks := by
    intro other hother
    rcases List.mem_append.mp hother with hold | hnew
    · exact (hn.tasks other hold).mono (fun _ _ => id) (fun _ _ => id) fun _ => id
    · exact (List.mem_singleton.mp hnew ▸ ht).mono (fun _ _ => id) (fun _ _ => id) fun _ => id
  answers := hn.answers
  noted := hn.noted
  history := hn.history
  requests := hn.requests
  unique := hn.unique
  responses := hn.responses

/-- A node stays honest when a connection is made or lost, and when its clock, its salt or its
PGP keys change. -/
theorem Honest.environment (hn : Honest e wire h n)
    (htable : ∀ addr conn, n'.table addr = some conn → n'.remote conn = some addr)
    (hremote : ∀ conn addr, n.remote conn = some addr → n'.remote conn = some addr)
    (hauth : ∀ conn key, n'.inboundSender conn = some key → n.inboundSender conn = some key)
    (htoken : n'.token = n.token) (htasks : n'.tasks = n.tasks) (hanswers : n'.answers = n.answers)
    (hhistory : n'.history = n.history) (hsent : n'.sent = n.sent)
    (hid : n'.nextId = n.nextId) : Honest e wire h n' where
  token := htoken ▸ hn.token
  table := htable
  tasks := by
    intro task ht
    exact (hn.tasks task (htasks ▸ ht)).mono (fun _ _ => id) hremote (hsent ▸ List.Subset.refl _)
  answers := hanswers ▸ hn.answers
  noted := fun conn key hkey => hhistory ▸ hn.noted conn key (hauth conn key hkey)
  history := by
    intro entry he
    obtain ⟨hr, hv⟩ := hn.history entry (hhistory ▸ he)
    exact ⟨hremote _ _ hr, hv⟩
  requests := hsent ▸ hid ▸ hn.requests
  unique := hsent ▸ hn.unique
  responses := hsent ▸ hn.responses

variable [DecidableEq D]

/-- Every step that is possible and keeps handshakes apart keeps a node honest. -/
theorem Honest.step (lawful : e.Lawful) (hall : ∀ h, Honest e (Network.wire net) h (net h))
    {label : Label D P R Q} (hpossible : Possible e net (h, label))
    (hapart : Apart e net (h, label)) (hstep : (net h).step (e.host h) label = some n') :
    Honest e (Network.wire net) h n' := by
  have hn := hall h
  cases label with
  | packet src packet =>
    cases hstep
    exact hn.spawn hpossible
  | join bootstrap =>
    cases hstep
    exact hn.spawn trivial
  | authenticate target addr =>
    cases hstep
    exact hn.spawn trivial
  | clock now | renewSalt salt | loadKeys pgpKeys =>
    cases hstep
    exact hn.environment hn.table (fun _ _ => id) (fun _ _ => id) rfl rfl rfl rfl rfl rfl
  | connect addr =>
    cases hstep
    refine hn.environment ?_ ?_ (fun _ _ => Node.inboundSender_connect) rfl rfl rfl rfl rfl rfl
    · intro other conn htable
      simp only [Function.update_apply] at htable
      split at htable
      · rename_i haddr
        cases htable
        exact haddr ▸ Node.remote_connect
      · exact Node.remote_of_connect (hn.table other conn htable)
    · exact fun conn other => Node.remote_of_connect
  | disconnect addr =>
    cases hstep
    refine hn.environment ?_ (fun _ _ => id) (fun _ _ => id) rfl rfl rfl rfl rfl rfl
    intro other conn htable
    simp only [Function.update_apply] at htable
    split at htable
    · exact absurd htable (by simp)
    · exact hn.table other conn htable
  | advance k outcome =>
    obtain ⟨task, m, task', htask, hmove, rfl⟩ := Node.advance_moves hstep
    exact Honest.advance lawful hall hmove (List.mem_of_getElem? htask) (hapart.2 task htask)
      hapart.1 k

omit [DecidableEq D] in
/-- Under honest keys, a signature that is good for fresh bytes is a fresh signature. -/
theorem signature_ne_of_fresh (lawful : e.Lawful) {h' : H} {addr addr' : SocketAddr}
    {key key' : Key D} {proof proof' : Proof D} (hv : Vouched e wire h addr key proof)
    (hv' : Vouched e wire h' addr' key' proof') (howned : e.Owned key.pubKey ∧ e.Owned key'.pubKey)
    (hfresh : (key.pubKey, proof.signed e.crypto) ≠ (key'.pubKey, proof'.signed e.crypto)) :
    proof.signature ≠ proof'.signature := by
  obtain ⟨signature, hs, hgood⟩ := hv.valid
  obtain ⟨signature', hs', hgood'⟩ := hv'.valid
  obtain ⟨⟨owner, howner⟩, owner', howner'⟩ := howned
  intro hsame
  have he : signature = signature' := Option.some.inj ((hs.symm.trans hsame).trans hs')
  subst he
  rw [howner] at hgood
  rw [howner'] at hgood'
  obtain ⟨rfl, hdata⟩ := lawful.binding _ _ _ _ _ hgood hgood'
  exact hfresh (Prod.ext (howner.trans howner'.symm) hdata)

variable [DecidableEq H]

/-- Every step that keeps handshakes apart accepts no signature again. -/
theorem Once.step (lawful : e.Lawful) (hall : ∀ h, Honest e (Network.wire net) h (net h))
    (honce : Once net) {label : Label D P R Q} (hapart : Apart e net (h, label))
    (hstep : (net h).step (e.host h) label = some n') : Once (Function.update net h n') := by
  rcases Node.step_history hstep with hsame | ⟨k, outcome, task, new, rfl, htask, hnew, happend⟩
  · have hhistory : ∀ g, (Function.update net h n' g).history = (net g).history := by
      intro g
      rw [Function.update_apply]
      split
      · rename_i hg
        rw [hsame, hg]
      · rfl
    intro g g' entry he entry' he'
    exact honce g g' entry (hhistory g ▸ he) entry' (hhistory g' ▸ he')
  · have hmem : ∀ g entry, entry ∈ (Function.update net h n' g).history →
        entry ∈ (net g).history ∨ g = h ∧ entry = new := by
      intro g entry he
      rw [Function.update_apply] at he
      split at he
      · rename_i hg
        rw [happend, List.mem_append, List.mem_singleton] at he
        exact he.imp (fun hold => hg ▸ hold) fun hlast => ⟨hg, hlast⟩
      · exact Or.inl he
    have hfresh : ∀ g, ∀ old ∈ (net g).history, (g, old.conn) ≠ (h, new.conn) →
        old.proof.signature ≠ new.proof.signature := by
      intro g old hold hne
      have hcredible := (hall h).tasks task (List.mem_of_getElem? htask)
      have hseparate := hapart.2 task htask
      by_cases howned : e.Owned old.key.pubKey ∧ e.Owned new.key.pubKey
      · exact signature_ne_of_fresh lawful ((hall g).history old hold).2 (hcredible.entry hnew).2
          howned (hseparate.fresh new hnew g old hold hne howned)
      · exact hseparate.unshared new hnew g old hold hne howned
    intro g g' entry he entry' he' hne
    rcases hmem g entry he with hold | ⟨rfl, rfl⟩
    · rcases hmem g' entry' he' with hold' | ⟨rfl, rfl⟩
      · exact honce g g' entry hold entry' hold' hne
      · exact hfresh g entry hold hne
    · rcases hmem g' entry' he' with hold' | ⟨rfl, rfl⟩
      · exact (hfresh g' entry' hold' hne.symm).symm
      · exact absurd rfl hne

/-- Every step that is possible and keeps handshakes apart keeps all nodes honest. -/
theorem honest_step (lawful : e.Lawful)
    (hinv : (∀ h, Honest e (Network.wire net) h (net h)) ∧ Once net) {a : H × Label D P R Q}
    {net' : H → Node D P R Q} (hpossible : Possible e net a) (hapart : Apart e net a)
    (hstep : e.step net a = some net') :
    (∀ h, Honest e (Network.wire net') h (net' h)) ∧ Once net' := by
  obtain ⟨hall, honce⟩ := hinv
  obtain ⟨h, label⟩ := a
  obtain ⟨n', hn', rfl⟩ := Option.map_eq_some_iff.mp hstep
  have hsub : ∀ g, Network.wire net g ⊆ Network.wire (Function.update net h n') g := by
    intro g
    simp only [Network.wire, Function.update_apply]
    split
    · rename_i hg
      exact hg ▸ Node.step_sent_subset hn'
    · exact List.Subset.refl _
  refine ⟨fun g => Honest.mono hsub ?_, honce.step lawful hall hapart hn'⟩
  rw [Function.update_apply]
  split
  · rename_i hg
    exact hg ▸ Honest.step lawful hall hpossible hapart hn'
  · exact hall g

omit [DecidableEq H] [DecidableEq D] in
/-- All nodes start honest. -/
theorem honest_start (salts : H → Bytes) :
    (∀ h, Honest e (Network.wire (start salts : H → Node D P R Q)) h (start salts h)) ∧
      Once (start salts : H → Node D P R Q) := by
  refine ⟨fun h => ?_, fun h h' entry he => absurd he (by simp [start, Node.start])⟩
  constructor <;> simp [start, Node.start, Node.inboundSender]

/-- In every run of honest nodes among adversaries that forge no signature of theirs, in which every
step keeps handshakes apart, the key in a connection belongs to the peer that proved it: an honest
owner is at the remote address, has itself made the proof and has sent it to this node, and no
signature was accepted on two connections. -/
theorem entity_authentication {H D P S R Q : Type*} [DecidableEq H] [DecidableEq D]
    (e : Network H D P S R) (lawful : e.Lawful) (salts : H → Bytes)
    (labels : List (H × Label D P R Q)) (net : H → Node D P R Q)
    (hrun : run e.step (start salts) labels = some net)
    (hpossible : Along e.step (Possible e) (start salts) labels)
    (hapart : Along e.step (Apart e) (start salts) labels) : Authentic e net := by
  have hboth := hpossible.and hapart
  obtain ⟨hall, honce⟩ := run_invariant_along
    (fun net a net' hinv hc hstep => honest_step lawful hinv hc.1 hc.2 hstep)
    (honest_start salts) hboth hrun
  refine ⟨fun h => (hall h).noted, fun h entry he => ((hall h).history entry he).2.valid,
    fun h entry he owner hkey => ?_, honce⟩
  obtain ⟨hremote, hvouched⟩ := (hall h).history entry he
  obtain ⟨haddr, hgave⟩ := hvouched.owner owner (congrArg Key.pubKey hkey)
  exact ⟨hremote.trans (congrArg some haddr), hgave⟩

end Bqti.Dht.Network

namespace Bqti.Dht

open Bqti.Core Network

/-- Two honest nodes: a newcomer and the node that issues its token. -/
inductive Party
  | newcomer
  | issuer
  deriving DecidableEq

instance : Fintype Party := ⟨{.newcomer, .issuer}, fun party => by cases party <;> decide⟩

/-- Where the node that issues tokens is reached. -/
def sampleIssuerAddr : SocketAddr := ⟨.ofBytes 10 0 0 1, 4000⟩

/-- The two nodes, with the newcomer at a given address. -/
def sampleNetwork (newcomer : SocketAddr) : Network Party Bytes Unit Unit Unit where
  crypto := sampleCrypto
  verifyReport _ _ _ := false
  version := "0.1.0"
  identity
    | .newcomer => ⟨samplePeer, fun data => if data = sampleWork then some sampleWorkSignature
        else none, [], none⟩
    | .issuer => sampleHost.identity
  addr
    | .newcomer => newcomer
    | .issuer => sampleIssuerAddr

/-- The two nodes are lawful when they are at two addresses. -/
theorem sampleNetwork_lawful {newcomer : SocketAddr} (h : newcomer ≠ sampleIssuerAddr) :
    (sampleNetwork newcomer).Lawful where
  addr_injective := by
    intro a b hab
    cases a <;> cases b
    · rfl
    · exact absurd hab h
    · exact absurd hab.symm h
    · rfl
  pubKey_injective := by
    have hkeys : samplePeer ≠ sampleIssuer := by decide +kernel
    intro a b hab
    cases a <;> cases b
    · rfl
    · exact absurd hab hkeys
    · exact absurd hab.symm hkeys
    · rfl
  binding := by
    intro owner owner' data data' signature hv hv'
    have hkeys : samplePeer ≠ sampleIssuer := by decide +kernel
    simp only [sampleNetwork, sampleCrypto, Bool.and_eq_true, beq_iff_eq] at hv hv'
    refine ⟨?_, hv.1.2.trans hv'.1.2.symm⟩
    have hsame := hv.1.1.trans hv'.1.1.symm
    cases owner <;> cases owner'
    · rfl
    · exact absurd hsame hkeys
    · exact absurd hsame.symm hkeys
    · rfl

/-- The proof of work of the newcomer, as it is sent. -/
def sampleSubmission : DhtRequest Bytes Unit :=
  .submitChallange (Key.new sampleCrypto samplePeer) sampleWork 26003408 sampleWorkSignature none
    "0.1.0"

/-- What the issuer notes down when it accepts that proof. -/
def sampleEntry (conn : Nat) (addr : SocketAddr) : Authenticated Bytes :=
  ⟨conn, addr, Key.new sampleCrypto samplePeer,
    .work (Key.new sampleCrypto samplePeer) sampleWork 26003408 sampleWorkSignature⟩

/-- The newcomer joins through the address that it has dialled, and the issuer sees its packets
come from another one. -/
def sampleJoin (dialled seen : SocketAddr) : List (Party × Label Bytes Unit Unit Unit) :=
  [(.issuer, .clock 1700000000), (.newcomer, .connect dialled), (.issuer, .connect seen),
    (.newcomer, .join dialled), (.newcomer, .advance 0 {}),
    (.issuer, .packet seen (.handShake 0 (.requestChallange (Key.new sampleCrypto samplePeer)))),
    (.issuer, .advance 0 {}), (.issuer, .advance 0 {}), (.issuer, .advance 0 {}),
    (.newcomer, .packet dialled (.response 0 (.challange 2710954512 24))),
    (.newcomer, .advance 1 {}), (.newcomer, .advance 1 {}), (.newcomer, .advance 0 {}),
    (.newcomer, .advance 0 { nonce := 26003408 }), (.newcomer, .advance 0 {}),
    (.issuer, .packet seen (.handShake 1 sampleSubmission)),
    (.issuer, .advance 1 {}), (.issuer, .advance 1 {}), (.issuer, .advance 1 {}),
    (.issuer, .advance 1 {}), (.issuer, .advance 1 {})]

/-- The newcomer joins through the issuer itself, which then knows it by its proof of work. -/
theorem entity_authentication_join :
    ∃ net, run (sampleNetwork sampleAddr).step (start fun _ => sampleSalt)
        (sampleJoin sampleIssuerAddr sampleAddr) = some net ∧
      (net .issuer).history = [sampleEntry 0 sampleAddr] ∧
      Authentic (sampleNetwork sampleAddr) net := by
  have hrun : (run (sampleNetwork sampleAddr).step (start fun _ => sampleSalt)
      (sampleJoin sampleIssuerAddr sampleAddr)).map (fun net => (net .issuer).history) =
      some [sampleEntry 0 sampleAddr] := by
    decide +kernel
  have hexplained : Along (sampleNetwork sampleAddr).step (Explained (sampleNetwork sampleAddr))
      (start fun _ => sampleSalt) (sampleJoin sampleIssuerAddr sampleAddr) := by
    decide +kernel
  have hapart : Along (sampleNetwork sampleAddr).step (Apart (sampleNetwork sampleAddr))
      (start fun _ => sampleSalt) (sampleJoin sampleIssuerAddr sampleAddr) := by
    decide +kernel
  obtain ⟨net, hnet, hhistory⟩ := Option.map_eq_some_iff.mp hrun
  exact ⟨net, hnet, hhistory, entity_authentication _ (sampleNetwork_lawful (by decide)) _ _ net
    hnet (hexplained.imp fun _ => possible_of_explained) hapart⟩

/-- The newcomer, somewhere else, joins through an adversary, which passes the challenge of the
issuer on to the newcomer and its proof back to the issuer, on two connections. -/
def sampleRelay : List (Party × Label Bytes Unit Unit Unit) :=
  sampleJoin sampleAddr sampleAddr ++
    [(.issuer, .connect ⟨sampleAddr.ip, 4001⟩),
      (.issuer, .packet ⟨sampleAddr.ip, 4001⟩ (.handShake 0 sampleSubmission)),
      (.issuer, .advance 2 {}), (.issuer, .advance 2 {}), (.issuer, .advance 2 {}),
      (.issuer, .advance 2 {}), (.issuer, .advance 2 {})]

/-- The network of that run. -/
def sampleRelayed : Network Party Bytes Unit Unit Unit :=
  sampleNetwork ⟨.ofBytes 10 0 0 9, 4000⟩

/-- The adversary is taken for the newcomer, which has sent nothing to the issuer, and the same
signature is accepted on two connections. -/
theorem relayed_proof_accepted :
    sampleRelayed.Lawful ∧
      ∃ net, run sampleRelayed.step (start fun _ => sampleSalt) sampleRelay = some net ∧
        Along sampleRelayed.step (Possible sampleRelayed) (start fun _ => sampleSalt)
          sampleRelay ∧
        ¬ sampleRelayed.GivenByOwner net ∧ ¬ Once net := by
  have hrun : (run sampleRelayed.step (start fun _ => sampleSalt) sampleRelay).map
      (fun net => ((net .issuer).history, (net .issuer).remote 0)) =
      some ([sampleEntry 0 sampleAddr, sampleEntry 1 ⟨sampleAddr.ip, 4001⟩],
        some sampleAddr) := by
    decide +kernel
  have hexplained : Along sampleRelayed.step (Explained sampleRelayed)
      (start fun _ => sampleSalt) sampleRelay := by
    decide +kernel
  obtain ⟨net, hnet, hstate⟩ := Option.map_eq_some_iff.mp hrun
  obtain ⟨hhistory, hremote⟩ := Prod.mk.inj hstate
  refine ⟨sampleNetwork_lawful (by decide), net, hnet,
    hexplained.imp fun _ => possible_of_explained, fun hgiven => ?_, fun honce => ?_⟩
  · have hmem : sampleEntry 0 sampleAddr ∈ (net .issuer).history := by simp [hhistory]
    obtain ⟨haddr, -⟩ := hgiven .issuer _ hmem .newcomer rfl
    exact absurd (hremote.symm.trans haddr) (by decide)
  · have hmem : sampleEntry 0 sampleAddr ∈ (net .issuer).history := by simp [hhistory]
    have hmem' : sampleEntry 1 ⟨sampleAddr.ip, 4001⟩ ∈ (net .issuer).history := by
      simp [hhistory]
    exact honce .issuer .issuer _ hmem _ hmem' (by decide) rfl

end Bqti.Dht
