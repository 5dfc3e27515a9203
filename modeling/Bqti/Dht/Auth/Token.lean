import Mathlib.Data.List.Basic
import Bqti.Core.Word

/-!
# Tokens of the swarm

A token names the peer it was issued to, the key that issued it and the certificate of the
issuer's authority with a detached PGP signature over that certificate. `verify` checks the
issuer's signature over the hash of all fields, `verify_pgp` checks the PGP signature over the
certificate; neither looks at what the other one checks.

Hashing, signatures and PGP are libraries of the program and parameters here. Digests form a
type of their own, so that they may be 32-byte arrays or free terms.
-/

namespace Bqti.Dht

open Bqti.Core

/-- The cryptographic libraries: SHA-256 fed with successive updates, the check of a signature
of `ActiveKeyIdentity`, and detached PGP signatures. -/
structure Crypto (D P S : Type*) where
  digest : List Bytes → D
  bytes : D → Bytes
  zeros : D
  verify : (pubKey data signature : Bytes) → Bool
  parseSignature : Bytes → Option S
  pgpVerify : S → P → Bytes → Bool

/-- A node of the DHT is known by its public key and the digest of it. A key that comes from the
wire may pair any identifier with any public key. -/
structure Key (D : Type*) where
  id : D
  pubKey : Bytes
  deriving DecidableEq, Repr

/-- Seconds from the issue of a token to its expiry. -/
def tokenExpSeconds : UInt64 := 30 * 60

/-- How far the issuer could attest the platform of the peer. -/
inductive TrustLevel
  | attested
  | unattested
  | rejected
  deriving DecidableEq, Repr

/-- The byte that stands for a level in the hash of a token. -/
def TrustLevel.asU8 : TrustLevel → UInt8
  | .attested => 0
  | .unattested => 1
  | .rejected => 2

/-- The failures of authentication. -/
inductive AuthError
  | unAuthorized
  | invalidToken
  | invalidPGPSignature
  | roguePeer
  | rateLimited
  | powSignFailed
  | manifestError
  deriving DecidableEq, Repr

/-- A token. -/
structure Token (D : Type*) where
  swarmId : D
  peer : Bytes
  pow : D
  issuedAt : UInt64
  expAt : UInt64
  issuer : Bytes
  issuerCaCert : Bytes
  issuerCaCertSig : Bytes
  trustLevel : TrustLevel
  signature : Option Bytes
  deriving DecidableEq, Repr

variable {D P S : Type*}

/-- The key of a public key. -/
def Key.new (cr : Crypto D P S) (pubKey : Bytes) : Key D := ⟨cr.digest [pubKey], pubKey⟩

namespace Token

/-- An unsigned token that is bound to no swarm. -/
def new (cr : Crypto D P S) (peer : Bytes) (pow : D) (level : TrustLevel) : Token D where
  swarmId := cr.zeros
  peer := peer
  pow := pow
  issuedAt := 0
  expAt := 0
  issuer := []
  issuerCaCert := []
  issuerCaCertSig := []
  trustLevel := level
  signature := none

/-- The peer that a token was issued to. -/
def sender (cr : Crypto D P S) (t : Token D) : Key D := Key.new cr t.peer

/-- Put the issuer's certificate, the PGP signature over it and the swarm into a token. -/
def bindSwarm (t : Token D) (swarmId : D) (caCert caCertSig : Bytes) : Token D :=
  { t with issuerCaCert := caCert, issuerCaCertSig := caCertSig, swarmId := swarmId }

/-- What is hashed for a token, update by update. -/
def hashInput (cr : Crypto D P S) (t : Token D) (issuer : Bytes) : List Bytes :=
  [t.peer, cr.bytes t.pow, be64 t.expAt, be64 t.issuedAt, [t.trustLevel.asU8],
    cr.bytes t.swarmId, t.issuerCaCert, t.issuerCaCertSig, issuer]

/-- The hash of a token for an issuer. -/
def calculateHash (cr : Crypto D P S) (t : Token D) (issuer : Bytes) : D :=
  cr.digest (t.hashInput cr issuer)

/-- The hash of a token for the issuer it names. -/
def hash (cr : Crypto D P S) (t : Token D) : D := t.calculateHash cr t.issuer

/-- Date a token and sign it; the signing key may refuse. -/
def sign (cr : Crypto D P S) (t : Token D) (pubKey : Bytes) (signer : Bytes → Option Bytes)
    (now : UInt64) : Except AuthError (Token D) :=
  let dated := { t with issuedAt := now, expAt := now + tokenExpSeconds }
  match signer (cr.bytes (dated.calculateHash cr pubKey)) with
  | none => .error .unAuthorized
  | some signature => .ok { dated with issuer := pubKey, signature := some signature }

/-- A token without an expiry date counts as expired. -/
def isExpired (t : Token D) (now : UInt64) : Bool := t.expAt == 0 || decide (now > t.expAt)

/-- The token is in force and signed by the key that it names as its issuer. -/
def verify (cr : Crypto D P S) (t : Token D) (now : UInt64) : Bool :=
  if t.isExpired now then false
  else
    match t.signature with
    | none => false
    | some signature => cr.verify t.issuer (cr.bytes (t.hash cr)) signature

/-- The token is in force, signed, and issued to a public key. -/
def verifyFor (cr : Crypto D P S) (t : Token D) (pubKey : Bytes) (now : UInt64) : Bool :=
  if t.peer = pubKey then t.verify cr now else false

/-- The certificate in the token is signed by the PGP key of the token's swarm. -/
def verifyPgp (cr : Crypto D P S) (t : Token D) (pgpKeys : D → Option P) : Bool :=
  if t.issuerCaCertSig.isEmpty then false
  else
    match pgpKeys t.swarmId with
    | none => false
    | some pgpKey =>
        match cr.parseSignature t.issuerCaCertSig with
        | none => false
        | some sig => cr.pgpVerify sig pgpKey t.issuerCaCert

/-- What `verify` accepts. -/
theorem verify_eq_true_iff {cr : Crypto D P S} {t : Token D} {now : UInt64} :
    t.verify cr now = true ↔ t.isExpired now = false ∧
      ∃ signature, t.signature = some signature ∧
        cr.verify t.issuer (cr.bytes (t.hash cr)) signature = true := by
  unfold verify
  cases t.isExpired now with
  | true => simp
  | false =>
    cases t.signature with
    | none => simp
    | some signature => simp

/-- What `verify_pgp` accepts. -/
theorem verifyPgp_eq_true_iff {cr : Crypto D P S} {t : Token D} {pgpKeys : D → Option P} :
    t.verifyPgp cr pgpKeys = true ↔ t.issuerCaCertSig ≠ [] ∧
      ∃ pgpKey sig, pgpKeys t.swarmId = some pgpKey ∧
        cr.parseSignature t.issuerCaCertSig = some sig ∧
        cr.pgpVerify sig pgpKey t.issuerCaCert = true := by
  unfold verifyPgp
  cases hs : t.issuerCaCertSig with
  | nil => simp
  | cons b rest =>
    cases pgpKeys t.swarmId with
    | none => simp
    | some pgpKey =>
      cases cr.parseSignature (b :: rest) with
      | none => simp
      | some sig => simp

/-- What `verify_for` accepts. -/
theorem verifyFor_eq_true_iff {cr : Crypto D P S} {t : Token D} {pubKey : Bytes}
    {now : UInt64} :
    t.verifyFor cr pubKey now = true ↔ t.peer = pubKey ∧ t.verify cr now = true := by
  unfold verifyFor
  by_cases h : t.peer = pubKey
  · rw [if_pos h]
    exact ⟨fun hv => ⟨h, hv⟩, And.right⟩
  · rw [if_neg h]
    exact ⟨fun hv => absurd hv (by simp), fun hv => absurd hv.1 h⟩

end Token

end Bqti.Dht
