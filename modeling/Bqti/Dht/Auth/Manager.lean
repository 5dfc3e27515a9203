import Mathlib.Logic.Function.Basic
import Bqti.Dht.Auth.Token

/-!
# Challenges, proofs of work and the issue of tokens

A newcomer asks for a challenge, which is a function of its public key, its address and a salt
that the node renews every six minutes, and returns a proof of work over it. A node that
accepts the proof issues a token. Later requests of a peer are counted by a rate limiter.
-/

namespace Bqti.Dht

open Bqti.Core

/-- The address of a host. -/
inductive IpAddr
  | v4 (octets : Vector UInt8 4)
  | v6 (octets : Vector UInt8 16)
  deriving DecidableEq, Repr

/-- An address of version 4 by its bytes. -/
def IpAddr.ofBytes (a b c d : UInt8) : IpAddr := .v4 #v[a, b, c, d]

/-- The bytes of an address. -/
def IpAddr.octets : IpAddr → Bytes
  | .v4 octets => octets.toList
  | .v6 octets => octets.toList

/-- The address of an endpoint. -/
structure SocketAddr where
  ip : IpAddr
  port : UInt16
  deriving DecidableEq, Repr

/-- The number of leading zero bits a proof of work needs. -/
def difficulty : UInt32 := 24

/-- A proof of work over a challenge, with the attestation of the platform if there is one. -/
structure PoW (D R : Type*) where
  value : D
  challange : UInt32
  nonce : UInt32
  signature : Option Bytes
  attestation : Option R
  difficulty : UInt32
  deriving DecidableEq

/-- What a node is: its signing key, the certificate of its authority, and the swarm with the
PGP signature over that certificate, which may fail to be written out as bytes. -/
structure Identity (D : Type*) where
  pubKey : Bytes
  signer : Bytes → Option Bytes
  caCert : Bytes
  pgpDetails : Option (D × Option Bytes)

variable {D P S R : Type*}

/-- The challenge for a public key at an address; `none` models the panic on a digest of fewer
than four bytes. -/
def calculateChallenge (cr : Crypto D P S) (pubKey : Bytes) (ip : IpAddr) (salt : Bytes) :
    Option UInt32 :=
  ofBe32 (cr.bytes (cr.digest [pubKey, ip.octets, salt]))

namespace PoW

/-- The digest that a nonce gives. -/
def calculate (cr : Crypto D P S) (pubKey : Bytes) (challenge nonce : UInt32) : D :=
  cr.digest [pubKey, be32 challenge, be32 nonce]

/-- The loop over the leading whole bytes; `none` models an index out of bounds. -/
def zeroBytes : Bytes → Nat → Option Bool
  | _, 0 => some true
  | [], _ + 1 => none
  | b :: rest, n + 1 => if b ≠ 0 then some false else zeroBytes rest n

/-- The digest starts with the given number of zero bits. -/
def validate (hash : Bytes) (difficulty : UInt32) : Option Bool :=
  let targetZeros := difficulty.toNat
  let fullBytes := targetZeros / 8
  let remainingBits := targetZeros % 8
  match zeroBytes hash fullBytes with
  | none => none
  | some false => some false
  | some true =>
      if remainingBits > 0 then
        match hash[fullBytes]? with
        | none => none
        | some b => some (b &&& ((0xFF : UInt8) <<< (8 - remainingBits).toUInt8) == 0)
      else some true

variable [DecidableEq D]

/-- The value is the digest of the nonce, meets the difficulty and is signed by the key. -/
def verify (cr : Crypto D P S) (secret : PoW D R) (pubKey : Bytes) : Option Bool :=
  match secret.signature with
  | none => some false
  | some signature =>
      let expectedHash := calculate cr pubKey secret.challange secret.nonce
      if expectedHash ≠ secret.value then some false
      else
        match validate (cr.bytes expectedHash) secret.difficulty with
        | none => none
        | some false => some false
        | some true => some (cr.verify pubKey (cr.bytes secret.value) signature)

/-- A proof of work that is accepted is signed by its key. -/
theorem signed_of_verify {cr : Crypto D P S} {secret : PoW D R} {pubKey : Bytes}
    (h : secret.verify cr pubKey = some true) :
    ∃ signature, secret.signature = some signature ∧
      cr.verify pubKey (cr.bytes secret.value) signature = true := by
  unfold verify at h
  cases hs : secret.signature with
  | none => simp [hs] at h
  | some signature =>
    refine ⟨signature, rfl, ?_⟩
    rw [hs] at h
    simp only at h
    split at h
    · exact absurd h (by simp)
    · split at h
      · exact absurd h (by simp)
      · exact absurd h (by simp)
      · exact Option.some.inj h

end PoW

/-- The trust in a platform: an attestation is compared with the manifest of the version. -/
def trustLevel (verifyReport : R → D → Bytes → Bool) (manifest : Option Bytes)
    (secret : PoW D R) : Except AuthError TrustLevel :=
  match secret.attestation with
  | none => .ok .unattested
  | some report =>
      match manifest with
      | none => .error .manifestError
      | some expectedHash =>
          if verifyReport report secret.value expectedHash then .ok .attested else .ok .rejected

/-- Issue a token to a peer that has proved its work; the outer `none` models a panic. -/
def issueToken [DecidableEq D] (cr : Crypto D P S) (me : Identity D)
    (verifyReport : R → D → Bytes → Bool) (manifest : Option Bytes) (now : UInt64)
    (pubKey : Bytes) (secret : PoW D R) : Option (Except AuthError (Token D)) :=
  match secret.verify cr pubKey with
  | none => none
  | some false => some (.error .roguePeer)
  | some true =>
      match trustLevel verifyReport manifest secret with
      | .error e => some (.error e)
      | .ok level =>
          let token := Token.new cr pubKey secret.value level
          match me.pgpDetails with
          | none => some (token.sign cr me.pubKey me.signer now)
          | some (_, none) => some (.error .invalidPGPSignature)
          | some (swarmId, some pgpSig) =>
              some ((token.bindSwarm swarmId me.caCert pgpSig).sign cr me.pubKey me.signer now)

/-- The signature of a token touches neither the peer nor what binds it to a swarm, and is one
that the signing key made over the hash of the signed token. -/
theorem Token.sign_eq_ok {cr : Crypto D P S} {t signed : Token D} {pubKey : Bytes}
    {signer : Bytes → Option Bytes} {now : UInt64}
    (h : t.sign cr pubKey signer now = .ok signed) :
    ∃ signature, signer (cr.bytes (signed.hash cr)) = some signature ∧
      signed = { t with
        issuedAt := now, expAt := now + tokenExpSeconds, issuer := pubKey,
        signature := some signature } := by
  unfold Token.sign at h
  dsimp only at h
  split at h
  · exact absurd h (by simp)
  · rename_i signature hs
    have he := Except.ok.inj h
    subst he
    exact ⟨signature, hs, rfl⟩

/-- A token is only issued to a key whose proof of work verifies, and names that key. -/
theorem issueToken_eq_ok [DecidableEq D] {cr : Crypto D P S} {me : Identity D}
    {verifyReport : R → D → Bytes → Bool} {manifest : Option Bytes} {now : UInt64}
    {pubKey : Bytes} {secret : PoW D R} {token : Token D}
    (h : issueToken cr me verifyReport manifest now pubKey secret = some (.ok token)) :
    secret.verify cr pubKey = some true ∧
      ∃ level unsigned, (unsigned = Token.new cr pubKey secret.value level ∧
          me.pgpDetails = none ∨
        ∃ swarmId pgpSig, me.pgpDetails = some (swarmId, some pgpSig) ∧
          unsigned = (Token.new cr pubKey secret.value level).bindSwarm swarmId me.caCert pgpSig) ∧
        unsigned.sign cr me.pubKey me.signer now = .ok token := by
  unfold issueToken at h
  cases hv : secret.verify cr pubKey with
  | none => simp [hv] at h
  | some verified =>
    cases verified with
    | false => simp [hv] at h
    | true =>
      refine ⟨rfl, ?_⟩
      rw [hv] at h
      simp only at h
      cases hl : trustLevel verifyReport manifest secret with
      | error e => simp [hl] at h
      | ok level =>
        rw [hl] at h
        simp only at h
        refine ⟨level, ?_⟩
        cases hd : me.pgpDetails with
        | none =>
          rw [hd] at h
          exact ⟨_, .inl ⟨rfl, rfl⟩, Option.some.inj h⟩
        | some details =>
          obtain ⟨swarmId, pgpSig⟩ := details
          rw [hd] at h
          cases pgpSig with
          | none => simp at h
          | some pgpSig => exact ⟨_, .inr ⟨swarmId, pgpSig, rfl, rfl⟩, Option.some.inj h⟩

/-- The token names the key it was issued to. -/
theorem issueToken_peer [DecidableEq D] {cr : Crypto D P S} {me : Identity D}
    {verifyReport : R → D → Bytes → Bool} {manifest : Option Bytes} {now : UInt64}
    {pubKey : Bytes} {secret : PoW D R} {token : Token D}
    (h : issueToken cr me verifyReport manifest now pubKey secret = some (.ok token)) :
    token.peer = pubKey := by
  obtain ⟨-, level, unsigned, hunsigned, hsign⟩ := issueToken_eq_ok h
  obtain ⟨signature, -, rfl⟩ := Token.sign_eq_ok hsign
  rcases hunsigned with ⟨rfl, -⟩ | ⟨swarmId, pgpSig, -, rfl⟩ <;> rfl

/-- The token names the node that issued it. -/
theorem issueToken_issuer [DecidableEq D] {cr : Crypto D P S} {me : Identity D}
    {verifyReport : R → D → Bytes → Bool} {manifest : Option Bytes} {now : UInt64}
    {pubKey : Bytes} {secret : PoW D R} {token : Token D}
    (h : issueToken cr me verifyReport manifest now pubKey secret = some (.ok token)) :
    token.issuer = me.pubKey := by
  obtain ⟨-, level, unsigned, -, hsign⟩ := issueToken_eq_ok h
  obtain ⟨signature, -, rfl⟩ := Token.sign_eq_ok hsign
  rfl

/-- The token is signed by the node that issued it. -/
theorem issueToken_signature [DecidableEq D] {cr : Crypto D P S} {me : Identity D}
    {verifyReport : R → D → Bytes → Bool} {manifest : Option Bytes} {now : UInt64}
    {pubKey : Bytes} {secret : PoW D R} {token : Token D}
    (h : issueToken cr me verifyReport manifest now pubKey secret = some (.ok token)) :
    ∃ signature, token.signature = some signature ∧
      me.signer (cr.bytes (token.hash cr)) = some signature := by
  obtain ⟨-, level, unsigned, -, hsign⟩ := issueToken_eq_ok h
  obtain ⟨signature, hs, rfl⟩ := Token.sign_eq_ok hsign
  exact ⟨signature, rfl, hs⟩

/-! ## The rate limiter -/

/-- How many requests a key has made since when. -/
abbrev Window := UInt32 × UInt64

/-- The windows of the keys that were seen lately. -/
structure RateLimiter (D : Type*) where
  requests : Key D → Option Window
  maxPerWindow : UInt32
  windowSeconds : UInt64

namespace RateLimiter

/-- The limiter of a node: one hundred requests in a minute. -/
def new : RateLimiter D := ⟨fun _ => none, 100, 60⟩

/-- Forget the windows that have ended, then count one request of a key. -/
def check [DecidableEq D] (l : RateLimiter D) (sender : Key D) (now : UInt64) :
    RateLimiter D × Bool :=
  let retained := fun key => (l.requests key).filter fun w => decide (now - w.2 ≤ l.windowSeconds)
  let window := (retained sender).getD (0, now)
  let put := fun w => { l with requests := Function.update retained sender (some w) }
  if now - window.2 > l.windowSeconds then (put (1, now), true)
  else if window.1 ≥ l.maxPerWindow then (put window, false)
  else (put (window.1 + 1, window.2), true)

end RateLimiter

end Bqti.Dht
