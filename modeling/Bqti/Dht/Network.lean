import Mathlib.Data.Fintype.Basic
import Bqti.Dht.Moves

/-!
# Honest nodes among adversaries

Every honest node runs the same program at an address of its own. Whoever speaks from another
address is the adversary: it opens connections, offers any nonce and passes on whatever it was
sent, but it presents no signature of an honest key that no honest node has sent to it.
-/

namespace Bqti.Dht

open Bqti.Core

/-- The honest nodes: the libraries they share, who they are and where they are reached. -/
structure Network (H D P S R : Type*) where
  crypto : Crypto D P S
  verifyReport : R → D → Bytes → Bool
  version : String
  identity : H → Identity D
  addr : H → SocketAddr

/-- What each honest node has sent, and to which address. -/
abbrev Wire (H D R Q : Type*) := H → List (SocketAddr × DhtPacket D R Q)

/-- The signatures that a packet carries. -/
def DhtPacket.signatures {D R Q : Type*} : DhtPacket D R Q → List Bytes
  | .handShake _ (.submitHandshake token signature) => signature :: token.signature.toList
  | .handShake _ (.submitChallange _ _ _ signature _ _) => [signature]
  | .response _ (.welcome token) => token.signature.toList
  | _ => []

/-- The signature that a key was accepted for. -/
def Proof.signature {D : Type*} : Proof D → Option Bytes
  | .ownership _ signature _ => some signature
  | .work _ _ _ signature => some signature
  | .welcome token => token.signature

/-- The bytes under that signature. They name neither the verifier nor the connection. -/
def Proof.signed {D P S : Type*} (cr : Crypto D P S) : Proof D → Bytes
  | .ownership token _ challange => cr.bytes (token.hash cr) ++ be32 challange
  | .work _ value _ _ => cr.bytes value
  | .welcome token => cr.bytes (token.hash cr)

/-- What a task is about to check: where it came from, the key in whose name and the signature. -/
structure Presented where
  src : SocketAddr
  pubKey : Bytes
  signature : Option Bytes
  deriving DecidableEq

/-- What a task has received to prove a key. -/
def Task.presents {D R Q : Type*} : Task D R Q → Option Presented
  | .challenged src _ _ token signature _ => some ⟨src, token.peer, some signature⟩
  | .submitted src _ _ senderId secret => some ⟨src, senderId.pubKey, secret.signature⟩
  | .welcomed _ _ _ source token => some ⟨source, token.issuer, token.signature⟩
  | _ => none

/-- The checks that the node makes of it. -/
def Node.passes {D P S R Q : Type*} [DecidableEq D] (host : Host D P S R) (n : Node D P R Q) :
    Task D R Q → Bool
  | .challenged _ _ _ token signature challange =>
      token.verify host.crypto n.now && token.verifyPgp host.crypto n.pgpKeys &&
        host.crypto.verify (token.sender host.crypto).pubKey
          (host.crypto.bytes (token.hash host.crypto) ++ be32 challange) signature
  | .submitted _ _ _ senderId secret => secret.verify host.crypto senderId.pubKey == some true
  | .welcomed _ _ _ _ token =>
      token.verifyFor host.crypto host.key.pubKey n.now && token.verifyPgp host.crypto n.pgpKeys
  | _ => false

namespace Network

variable {H D P S R Q : Type*}

/-- What never changes at an honest node. -/
def host (e : Network H D P S R) (h : H) : Host D P S R :=
  ⟨e.crypto, e.identity h, e.verifyReport, e.version⟩

/-- The public key of an honest node. -/
def pubKey (e : Network H D P S R) (h : H) : Bytes := (e.identity h).pubKey

/-- The key of an honest node. -/
def key (e : Network H D P S R) (h : H) : Key D := Key.new e.crypto (e.pubKey h)

/-- A public key of an honest node. -/
def Owned (e : Network H D P S R) (pubKey : Bytes) : Prop := ∃ owner, pubKey = e.pubKey owner

/-- Addresses and public keys tell the honest nodes apart, and under their keys a signature is
good for one key and one message only. Of keys that the adversary chooses nothing is known. -/
structure Lawful (e : Network H D P S R) : Prop where
  addr_injective : Function.Injective e.addr
  pubKey_injective : Function.Injective e.pubKey
  binding : ∀ owner owner' data data' signature,
    e.crypto.verify (e.pubKey owner) data signature = true →
    e.crypto.verify (e.pubKey owner') data' signature = true → owner = owner' ∧ data = data'

/-- All honest nodes as they start. -/
def start (salts : H → Bytes) : H → Node D P R Q := fun h => Node.start (salts h)

/-- One step of one honest node. -/
def step [DecidableEq H] [DecidableEq D] (e : Network H D P S R) (net : H → Node D P R Q)
    (a : H × Label D P R Q) : Option (H → Node D P R Q) :=
  ((net a.1).step (e.host a.1) a.2).map (Function.update net a.1)

/-- What is on the wire. -/
def wire (net : H → Node D P R Q) : Wire H D R Q := fun h => (net h).sent

/-- An address of the adversary. -/
def Foreign (e : Network H D P S R) (addr : SocketAddr) : Prop := ∀ h, addr ≠ e.addr h

/-- An honest node has sent this signature to the adversary. -/
def Leaked (e : Network H D P S R) (wire : Wire H D R Q) (signature : Bytes) : Prop :=
  ∃ h, ∃ m ∈ wire h, e.Foreign m.1 ∧ signature ∈ m.2.signatures

/-- A packet that the adversary can make: it forges no signature of an honest key. -/
def Crafted (e : Network H D P S R) (wire : Wire H D R Q) (packet : DhtPacket D R Q) : Prop :=
  ∀ signature ∈ packet.signatures, ∀ h data,
    e.crypto.verify (e.pubKey h) data signature = true → e.Leaked wire signature

/-- A packet reaches a node: a request of an authenticated peer, which proves nothing, a packet
that an honest node has sent to it, or a packet of the adversary. -/
inductive Delivered (e : Network H D P S R) (wire : Wire H D R Q) (h : H) :
    SocketAddr → DhtPacket D R Q → Prop
  | request {src : SocketAddr} {id : RequestId} {payload : Q} :
      Delivered e wire h src (.request id payload)
  | honest {sender : H} {packet : DhtPacket D R Q}
      (sent : (e.addr h, packet) ∈ wire sender) : Delivered e wire h (e.addr sender) packet
  | foreign {src : SocketAddr} {packet : DhtPacket D R Q} (outside : e.Foreign src)
      (crafted : e.Crafted wire packet) : Delivered e wire h src packet

/-- What the network and the adversary can do. -/
def Possible (e : Network H D P S R) (net : H → Node D P R Q) : H × Label D P R Q → Prop
  | (h, .packet src packet) => Delivered e (wire net) h src packet
  | _ => True

/-- A step of a task that does not accept a proof of an honest key from the adversary that an
honest node has sent to the adversary. Of an honest key it accepts no bytes that were accepted for
the same key on another connection, and of another key no signature that was. -/
structure Separate [DecidableEq D] (e : Network H D P S R) (net : H → Node D P R Q) (h : H)
    (task : Task D R Q) : Prop where
  unrelayed : (net h).passes (e.host h) task = true → ∀ p ∈ task.presents, e.Foreign p.src →
    e.Owned p.pubKey → ∀ signature ∈ p.signature, ¬ e.Leaked (wire net) signature
  fresh : ∀ entry ∈ task.entry (e.host h), ∀ other, ∀ old ∈ (net other).history,
    (other, old.conn) ≠ (h, entry.conn) → e.Owned old.key.pubKey ∧ e.Owned entry.key.pubKey →
      (old.key.pubKey, old.proof.signed e.crypto) ≠
        (entry.key.pubKey, entry.proof.signed e.crypto)
  unshared : ∀ entry ∈ task.entry (e.host h), ∀ other, ∀ old ∈ (net other).history,
    (other, old.conn) ≠ (h, entry.conn) → ¬ (e.Owned old.key.pubKey ∧ e.Owned entry.key.pubKey) →
      old.proof.signature ≠ entry.proof.signature

/-- Steps that keep handshakes apart. The numbers of calls do not wrap. -/
def Apart [DecidableEq D] (e : Network H D P S R) (net : H → Node D P R Q) :
    H × Label D P R Q → Prop
  | (h, .advance k _) =>
      (net h).nextId + 1 < 2 ^ 64 ∧ ∀ task ∈ (net h).tasks[k]?, Separate e net h task
  | _ => True

/-- The owner of a key has made a proof of it and has sent it to a node. -/
def Gave (e : Network H D P S R) (wire : Wire H D R Q) (owner h : H) : Proof D → Prop
  | .ownership token signature _ =>
      (∃ nonce, (e.identity owner).signer (e.crypto.bytes (token.hash e.crypto) ++ be32 nonce) =
        some signature) ∧
      ∃ id, (e.addr h, .handShake id (.submitHandshake token signature)) ∈ wire owner
  | .work senderId value nonce signature =>
      (e.identity owner).signer (e.crypto.bytes value) = some signature ∧
      ∃ id report version, (e.addr h, .handShake id
        (.submitChallange senderId value nonce signature report version)) ∈ wire owner
  | .welcome token =>
      (∃ signature, token.signature = some signature ∧
        (e.identity owner).signer (e.crypto.bytes (token.hash e.crypto)) = some signature) ∧
      ∃ id, (e.addr h, .response id (.welcome token)) ∈ wire owner

/-- A key of an honest node that was written into a connection: the owner is at the remote
address of the connection, has itself made the proof and has sent it to this node. -/
def GivenByOwner (e : Network H D P S R) (net : H → Node D P R Q) : Prop :=
  ∀ h, ∀ entry ∈ (net h).history, ∀ owner, entry.key = e.key owner →
    (net h).remote entry.conn = some (e.addr owner) ∧ e.Gave (wire net) owner h entry.proof

/-- No signature was accepted on two connections. -/
def Once (net : H → Node D P R Q) : Prop :=
  ∀ h h', ∀ entry ∈ (net h).history, ∀ entry' ∈ (net h').history,
    (h, entry.conn) ≠ (h', entry'.conn) → entry.proof.signature ≠ entry'.proof.signature

/-- Entity authentication. Every key in a connection was noted down when it was written, with
a signature that is good for it. -/
structure Authentic (e : Network H D P S R) (net : H → Node D P R Q) : Prop where
  noted : ∀ h conn key, (net h).inboundSender conn = some key →
    ∃ entry ∈ (net h).history, entry.conn = conn ∧ entry.key = key
  signed : ∀ h, ∀ entry ∈ (net h).history, ∃ signature, entry.proof.signature = some signature ∧
    e.crypto.verify entry.key.pubKey (entry.proof.signed e.crypto) signature = true
  given : e.GivenByOwner net
  once : Once net

/-! ## The wire only grows -/

section Growth

variable {e : Network H D P S R} {wire wire' : Wire H D R Q}

/-- What the adversary has, it keeps. -/
theorem Leaked.mono (hsub : ∀ h, wire h ⊆ wire' h) {signature : Bytes}
    (hl : e.Leaked wire signature) : e.Leaked wire' signature := by
  obtain ⟨h, m, hm, hforeign, hsig⟩ := hl
  exact ⟨h, m, hsub h hm, hforeign, hsig⟩

/-- What the adversary can make, it can make later. -/
theorem Crafted.mono (hsub : ∀ h, wire h ⊆ wire' h) {packet : DhtPacket D R Q}
    (hc : e.Crafted wire packet) : e.Crafted wire' packet :=
  fun signature hs h data hv => (hc signature hs h data hv).mono hsub

/-- What has reached a node stays explained. -/
theorem Delivered.mono (hsub : ∀ h, wire h ⊆ wire' h) {h : H} {src : SocketAddr}
    {packet : DhtPacket D R Q} (hd : Delivered e wire h src packet) :
    Delivered e wire' h src packet := by
  cases hd with
  | request => exact .request
  | honest sent => exact .honest (hsub _ sent)
  | foreign outside crafted => exact .foreign outside (crafted.mono hsub)

/-- What an owner gave, it gave. -/
theorem Gave.mono (hsub : ∀ h, wire h ⊆ wire' h) {owner h : H} {proof : Proof D}
    (hg : e.Gave wire owner h proof) : e.Gave wire' owner h proof := by
  cases proof with
  | ownership token signature challange =>
    obtain ⟨hsigned, id, hid⟩ := hg
    exact ⟨hsigned, id, hsub owner hid⟩
  | work senderId value nonce signature =>
    obtain ⟨hsigned, id, report, version, hid⟩ := hg
    exact ⟨hsigned, id, report, version, hsub owner hid⟩
  | welcome token =>
    obtain ⟨hsigned, id, hid⟩ := hg
    exact ⟨hsigned, id, hsub owner hid⟩

end Growth

/-! ## Runs that can be checked -/

section Checked

variable [Fintype H] [DecidableEq H] [DecidableEq D] [DecidableEq R] [DecidableEq Q]
  {e : Network H D P S R} {net : H → Node D P R Q}

instance (pubKey : Bytes) : Decidable (e.Owned pubKey) :=
  inferInstanceAs (Decidable (∃ owner, pubKey = e.pubKey owner))

instance (addr : SocketAddr) : Decidable (e.Foreign addr) :=
  inferInstanceAs (Decidable (∀ h, addr ≠ e.addr h))

instance (wire : Wire H D R Q) (signature : Bytes) : Decidable (e.Leaked wire signature) :=
  inferInstanceAs (Decidable (∃ h, ∃ m ∈ wire h, e.Foreign m.1 ∧ signature ∈ m.2.signatures))

instance (h : H) (task : Task D R Q) : Decidable (Separate e net h task) :=
  decidable_of_iff
    (((net h).passes (e.host h) task = true → ∀ p ∈ task.presents, e.Foreign p.src →
      e.Owned p.pubKey → ∀ signature ∈ p.signature, ¬ e.Leaked (wire net) signature) ∧
    (∀ entry ∈ task.entry (e.host h), ∀ other, ∀ old ∈ (net other).history,
      (other, old.conn) ≠ (h, entry.conn) → e.Owned old.key.pubKey ∧ e.Owned entry.key.pubKey →
        (old.key.pubKey, old.proof.signed e.crypto) ≠
          (entry.key.pubKey, entry.proof.signed e.crypto)) ∧
    ∀ entry ∈ task.entry (e.host h), ∀ other, ∀ old ∈ (net other).history,
      (other, old.conn) ≠ (h, entry.conn) →
        ¬ (e.Owned old.key.pubKey ∧ e.Owned entry.key.pubKey) →
          old.proof.signature ≠ entry.proof.signature)
    ⟨fun hs => ⟨hs.1, hs.2.1, hs.2.2⟩, fun hs => ⟨hs.1, hs.2, hs.3⟩⟩

instance : (a : H × Label D P R Q) → Decidable (Apart e net a)
  | (h, .advance k _) => inferInstanceAs (Decidable
      ((net h).nextId + 1 < 2 ^ 64 ∧ ∀ task ∈ (net h).tasks[k]?, Separate e net h task))
  | (_, .packet _ _) | (_, .join _) | (_, .authenticate _ _) | (_, .clock _)
  | (_, .renewSalt _) | (_, .loadKeys _) | (_, .connect _) | (_, .disconnect _) => .isTrue trivial

/-- A packet of an honest node, or one whose signatures the adversary has been sent. -/
def Explained (e : Network H D P S R) (net : H → Node D P R Q) : H × Label D P R Q → Prop
  | (h, .packet src packet) =>
      (∃ sender, src = e.addr sender ∧ (e.addr h, packet) ∈ wire net sender) ∨
        e.Foreign src ∧ ∀ signature ∈ packet.signatures, e.Leaked (wire net) signature
  | _ => True

instance : (a : H × Label D P R Q) → Decidable (Explained e net a)
  | (h, .packet src packet) => inferInstanceAs (Decidable
      ((∃ sender, src = e.addr sender ∧ (e.addr h, packet) ∈ wire net sender) ∨
        e.Foreign src ∧ ∀ signature ∈ packet.signatures, e.Leaked (wire net) signature))
  | (_, .advance _ _) | (_, .join _) | (_, .authenticate _ _) | (_, .clock _)
  | (_, .renewSalt _) | (_, .loadKeys _) | (_, .connect _) | (_, .disconnect _) => .isTrue trivial

omit [Fintype H] [DecidableEq H] [DecidableEq D] [DecidableEq R] [DecidableEq Q] in
/-- What is explained is possible. -/
theorem possible_of_explained (a : H × Label D P R Q) (h : Explained e net a) :
    Possible e net a := by
  obtain ⟨node, label⟩ := a
  cases label with
  | packet src packet =>
    rcases h with ⟨sender, rfl, hsent⟩ | ⟨hforeign, hleaked⟩
    · exact .honest hsent
    · exact .foreign hforeign fun signature hs _ _ _ => hleaked signature hs
  | _ => trivial

end Checked

end Network

end Bqti.Dht
