import Bqti.Dht.Auth.TokenHash
import Bqti.Dht.Gate

/-!
# What an issued token is good for

A token that a node issues is accepted until it expires, and a token made from it by writing
over one field is accepted at no time. The hash is made for the signer before the signer is put
into the token as its issuer, and a verifier makes it again for the issuer that the token names.
-/

namespace Bqti.Dht

open Bqti.Core

variable {D P S R : Type*}

/-- What the identity signs is valid under its public key, and for no other key or message. -/
def Identity.Signs (cr : Crypto D P S) (me : Identity D) : Prop :=
  ∀ data signature, me.signer data = some signature →
    cr.verify me.pubKey data signature = true ∧ Token.SignedOnce cr signature

namespace Token

/-- No token that is hashed from other bytes has the hash of this one. -/
def HashUnique (cr : Crypto D P S) (t : Token D) : Prop :=
  ∀ other : Token D, other.hash cr = t.hash cr → other.hashed cr = t.hashed cr

/-- Another value is written into one field, which is not the signature. -/
inductive Tampered (t : Token D) : Token D → Prop
  | swarmId {v : D} (h : v ≠ t.swarmId) : Tampered t { t with swarmId := v }
  | peer {v : Bytes} (h : v ≠ t.peer) : Tampered t { t with peer := v }
  | pow {v : D} (h : v ≠ t.pow) : Tampered t { t with pow := v }
  | issuedAt {v : UInt64} (h : v ≠ t.issuedAt) : Tampered t { t with issuedAt := v }
  | expAt {v : UInt64} (h : v ≠ t.expAt) : Tampered t { t with expAt := v }
  | issuer {v : Bytes} (h : v ≠ t.issuer) : Tampered t { t with issuer := v }
  | issuerCaCert {v : Bytes} (h : v ≠ t.issuerCaCert) : Tampered t { t with issuerCaCert := v }
  | issuerCaCertSig {v : Bytes} (h : v ≠ t.issuerCaCertSig) :
      Tampered t { t with issuerCaCertSig := v }
  | trustLevel {v : TrustLevel} (h : v ≠ t.trustLevel) : Tampered t { t with trustLevel := v }

variable {cr : Crypto D P S} {t t' : Token D}

/-- Changing a field keeps the signature. -/
theorem Tampered.signature_eq (h : t.Tampered t') : t'.signature = t.signature := by
  cases h <;> rfl

/-- The bytes before and behind the field are the same, and the bytes of the field tell it. -/
theorem Tampered.hashed_ne (hinj : Function.Injective cr.bytes) (h : t.Tampered t') :
    t'.hashed cr ≠ t.hashed cr := by
  intro heq
  rw [hashed_eq, hashed_eq] at heq
  cases h <;> simp only [List.append_cancel_left_eq, List.append_cancel_right_eq] at heq
  case swarmId h | pow h => exact h (hinj heq)
  case issuedAt h | expAt h => exact h (be64_injective heq)
  case trustLevel h => exact h (asU8_injective (List.singleton_inj.mp heq))
  case peer h | issuer h | issuerCaCert h | issuerCaCertSig h => exact h heq

/-- A signature that is valid for the one token makes the other one fail. -/
theorem Tampered.verify_eq_false (hinj : Function.Injective cr.bytes) (hunique : t.HashUnique cr)
    {signature : Bytes} (hsignature : t.signature = some signature)
    (hvalid : cr.verify t.issuer (cr.bytes (t.hash cr)) signature = true)
    (honce : SignedOnce cr signature) (h : t.Tampered t') (now : UInt64) :
    t'.verify cr now = false := by
  refine Bool.eq_false_iff.mpr fun hverify => ?_
  obtain ⟨-, signature', hsignature', hvalid'⟩ := verify_eq_true_iff.mp hverify
  rw [h.signature_eq, hsignature] at hsignature'
  obtain rfl := Option.some.inj hsignature'
  have hhash := hinj (honce _ _ _ _ hvalid' hvalid).2
  exact h.hashed_ne hinj (hunique t' hhash)

/-- When a dated token is in force, if its date does not overflow. -/
theorem isExpired_eq_false_iff {now time : UInt64}
    (hclock : now.toNat + tokenExpSeconds.toNat < 2 ^ 64)
    (hexp : t.expAt = now + tokenExpSeconds) :
    t.isExpired time = false ↔ time.toNat ≤ now.toNat + tokenExpSeconds.toNat := by
  have hsum : (now + tokenExpSeconds).toNat = now.toNat + tokenExpSeconds.toNat := by
    rw [UInt64.toNat_add]
    exact Nat.mod_eq_of_lt hclock
  have hne : t.expAt ≠ 0 := by
    intro h
    rw [hexp, ← UInt64.toNat_inj, hsum] at h
    exact absurd h (Nat.succ_ne_zero _)
  rw [isExpired, beq_eq_false_iff_ne.mpr hne, Bool.false_or, decide_eq_false_iff_not, gt_iff_lt,
    UInt64.not_lt, UInt64.le_iff_toNat_le, hexp, hsum]

end Token

variable [DecidableEq D] {cr : Crypto D P S} {me : Identity D}
  {verifyReport : R → D → Bytes → Bool} {manifest : Option Bytes} {now : UInt64}
  {pubKey : Bytes} {secret : PoW D R} {token : Token D}

/-- An issued token is in force for the fixed time. -/
theorem issueToken_expAt
    (h : issueToken cr me verifyReport manifest now pubKey secret = some (.ok token)) :
    token.expAt = now + tokenExpSeconds := by
  obtain ⟨-, level, unsigned, -, hsign⟩ := issueToken_eq_ok h
  obtain ⟨signature, -, rfl⟩ := Token.sign_eq_ok hsign
  rfl

/-- For every key and proof of work, whatever the trust in the platform and with or without a
swarm: the token that a node issues is accepted for the key until it expires and no longer, and
a token with another value in one field is accepted at no time. -/
theorem issueToken_verifies (hinj : Function.Injective cr.bytes) (hsigner : me.Signs cr)
    (hclock : now.toNat + tokenExpSeconds.toNat < 2 ^ 64)
    (h : issueToken cr me verifyReport manifest now pubKey secret = some (.ok token))
    (hunique : token.HashUnique cr) :
    (∀ time : UInt64, token.verifyFor cr pubKey time = true ↔
      time.toNat ≤ now.toNat + tokenExpSeconds.toNat) ∧
    ∀ t', token.Tampered t' → ∀ time, t'.verify cr time = false := by
  obtain ⟨signature, hsignature, hsigned⟩ := issueToken_signature h
  obtain ⟨hvalid, honce⟩ := hsigner _ _ hsigned
  rw [← issueToken_issuer h] at hvalid
  constructor
  · intro time
    rw [Token.verifyFor_eq_true_iff, Token.verify_eq_true_iff,
      Token.isExpired_eq_false_iff hclock (issueToken_expAt h)]
    constructor
    · rintro ⟨-, htime, -⟩
      exact htime
    · intro htime
      exact ⟨issueToken_peer h, htime, signature, hsignature, hvalid⟩
  · intro t' htampered time
    exact htampered.verify_eq_false hinj hunique hsignature hvalid honce time

/-! ## A token on real values -/

/-- The token that the node of the sample issues to the newcomer. -/
def issuedToken : Token Bytes where
  swarmId := List.replicate 32 0
  peer := samplePeer
  pow := sampleWork
  issuedAt := 1700000000
  expAt := 1700001800
  issuer := sampleIssuer
  issuerCaCert := []
  issuerCaCertSig := []
  trustLevel := .unattested
  signature := some sampleTokenSignature

/-- SHA-256 and Ed25519 on the values of the sample; other bytes have another digest than the
token. -/
def issueCrypto : Crypto Bytes Unit Unit :=
  { sampleCrypto with
    digest := fun chunks =>
      if chunks.flatten = issuedToken.hashed sampleCrypto then sampleTokenHash
      else if sampleCrypto.digest chunks = sampleTokenHash then []
      else sampleCrypto.digest chunks
    verify := fun pubKey data signature => sampleCrypto.verify pubKey data signature ||
      pubKey == sampleIssuer && data == sampleTokenHash && signature == sampleTokenSignature }

/-- The sample library gives the issued token the hash of the sample token. -/
theorem hash_issueCrypto (t : Token Bytes) : t.hash issueCrypto =
    if t.hashed issueCrypto = issuedToken.hashed issueCrypto then sampleTokenHash
    else if t.hash sampleCrypto = sampleTokenHash then []
    else t.hash sampleCrypto := rfl

/-- No other token has the hash of the issued one. -/
theorem hashUnique_issuedToken : issuedToken.HashUnique issueCrypto := by
  intro other h
  by_contra hother
  rw [hash_issueCrypto issuedToken, if_pos rfl, hash_issueCrypto, if_neg hother] at h
  split at h
  · exact absurd h (by decide +kernel)
  · contradiction

/-- Only the signature of the token is asked for, which is not the one of the work. -/
theorem signs_sampleHost : sampleHost.identity.Signs issueCrypto := by
  intro data signature hsign
  have hvalid : ∀ {pubKey data}, issueCrypto.verify pubKey data sampleTokenSignature = true →
      pubKey = sampleIssuer ∧ data = sampleTokenHash := by
    intro pubKey data h
    have hwork : (sampleTokenSignature == sampleWorkSignature) = false := by decide +kernel
    simpa [issueCrypto, sampleCrypto, hwork] using h
  simp only [sampleHost, Option.ite_none_right_eq_some] at hsign
  obtain ⟨rfl, hsignature⟩ := hsign
  obtain rfl := Option.some.inj hsignature
  refine ⟨by simp [issueCrypto, sampleHost], fun pubKey data pubKey' data' h h' => ?_⟩
  obtain ⟨rfl, rfl⟩ := hvalid h
  obtain ⟨rfl, rfl⟩ := hvalid h'
  exact ⟨rfl, rfl⟩

/-- The token of the newcomer is accepted half an hour later and no longer, and not at all with
the newcomer as its issuer. -/
theorem issueToken_verifies_sample :
    issuedToken.verifyFor issueCrypto samplePeer 1700001800 = true ∧
      issuedToken.verifyFor issueCrypto samplePeer 1700001801 ≠ true ∧
      { issuedToken with issuer := samplePeer }.verify issueCrypto 1700000000 = false := by
  have hissue : issueToken issueCrypto sampleHost.identity (fun (_ : Unit) _ _ => false) none
      1700000000 samplePeer ⟨sampleWork, 2710954512, 26003408, some sampleWorkSignature, none,
        difficulty⟩ = some (.ok issuedToken) := by
    rfl
  obtain ⟨htime, htampered⟩ := issueToken_verifies Function.injective_id signs_sampleHost
    (by decide) hissue hashUnique_issuedToken
  exact ⟨(htime _).mpr (by decide), fun h => absurd ((htime _).mp h) (by decide),
    htampered _ (.issuer (by decide +kernel)) _⟩

end Bqti.Dht
