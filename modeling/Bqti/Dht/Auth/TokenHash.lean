import Bqti.Core.Sha256
import Bqti.Dht.Auth.Token

/-!
# What the hash of a token tells

The fields of a token go into the hash one behind the other and without their lengths. Where the
lengths of the fields are known, the hashed bytes tell every field. Where they are not, bytes can
move over the border of two fields, and two different tokens are hashed as one.
-/

namespace Bqti.Dht

open Bqti.Core

namespace Token

variable {D P S : Type*}

/-- The bytes that are hashed for a token. -/
def hashed (cr : Crypto D P S) (t : Token D) : Bytes := (t.hashInput cr t.issuer).flatten

/-- The tokens agree in all fields but the signature. -/
def SameFields (t t' : Token D) : Prop :=
  { t with signature := none } = { t' with signature := none }

/-- A signature is accepted for one key and one message at most. -/
def SignedOnce (cr : Crypto D P S) (signature : Bytes) : Prop :=
  ∀ pubKey data pubKey' data', cr.verify pubKey data signature = true →
    cr.verify pubKey' data' signature = true → pubKey = pubKey' ∧ data = data'

/-- Two tokens that differ in a field are hashed as different bytes, and no signature is valid
for both, as far as their digests do not collide. -/
structure TellsApart (cr : Crypto D P S) (t t' : Token D) : Prop where
  bytes : ¬ t.SameFields t' → t.hashed cr ≠ t'.hashed cr
  signature : ¬ t.SameFields t' → (t.hash cr = t'.hash cr → t.hashed cr = t'.hashed cr) →
    ∀ signature, SignedOnce cr signature →
      ¬ (cr.verify t.issuer (cr.bytes (t.hash cr)) signature = true ∧
        cr.verify t'.issuer (cr.bytes (t'.hash cr)) signature = true)

variable {cr : Crypto D P S} {t t' : Token D}

/-- That no signature is valid for both follows from the bytes. -/
theorem tellsApart_of_bytes (hinj : Function.Injective cr.bytes)
    (h : ¬ t.SameFields t' → t.hashed cr ≠ t'.hashed cr) : t.TellsApart cr t' where
  bytes := h
  signature hdiffer hcollide signature honce := by
    rintro ⟨hvalid, hvalid'⟩
    have hbytes := (honce _ _ _ _ hvalid hvalid').2
    exact h hdiffer (hcollide (hinj hbytes))

/-! ## The hashed bytes -/

/-- The order of the fields in the hash. -/
theorem hashed_eq (cr : Crypto D P S) (t : Token D) :
    t.hashed cr = t.peer ++ (cr.bytes t.pow ++ (be64 t.expAt ++ (be64 t.issuedAt ++
      ([t.trustLevel.asU8] ++ (cr.bytes t.swarmId ++ (t.issuerCaCert ++
        (t.issuerCaCertSig ++ t.issuer))))))) := by
  simp only [hashed, hashInput, List.flatten_cons, List.flatten_nil, List.append_nil]

/-- Different trust levels are different bytes. -/
theorem asU8_injective : Function.Injective TrustLevel.asU8 := by
  intro level level' h
  cases level <;> cases level' <;> first | rfl | exact absurd h (by decide)

/-- The lengths of the fields that have no fixed one. -/
@[ext]
structure FieldLengths where
  peer : Nat
  issuerCaCert : Nat
  issuerCaCertSig : Nat
  issuer : Nat
  deriving DecidableEq

/-- The lengths together. -/
def FieldLengths.total (n : FieldLengths) : Nat :=
  n.peer + n.issuerCaCert + n.issuerCaCertSig + n.issuer

/-- The lengths of the fields of a token that have no fixed length. -/
def lengths (t : Token D) : FieldLengths where
  peer := t.peer.length
  issuerCaCert := t.issuerCaCert.length
  issuerCaCertSig := t.issuerCaCertSig.length
  issuer := t.issuer.length

section FixedWidth

variable {cr : Crypto (Vector UInt8 32) P S} {t t' : Token (Vector UInt8 32)}

/-- A digest of the library has 32 bytes. -/
theorem length_bytes (hbytes : cr.bytes = Vector.toList) (d : Vector UInt8 32) :
    (cr.bytes d).length = 32 := by
  rw [hbytes, Vector.length_toList]

/-- Different digests have different bytes. -/
theorem bytes_injective (hbytes : cr.bytes = Vector.toList) : Function.Injective cr.bytes :=
  fun _ _ h => Vector.toList_inj.mp (by rwa [hbytes] at h)

/-- The fields of fixed width take 81 bytes. -/
theorem length_hashed (hbytes : cr.bytes = Vector.toList) :
    (t.hashed cr).length = 81 + t.lengths.total := by
  simp only [hashed_eq, List.length_append, length_bytes hbytes, length_be64, List.length_cons,
    List.length_nil, lengths, FieldLengths.total]
  omega

/-- Where the lengths of the peer, the certificate and its signature agree, the bytes are read
field by field, and what is left is the issuer. -/
theorem sameFields_of_hashed (hbytes : cr.bytes = Vector.toList)
    (hpeer : t.lengths.peer = t'.lengths.peer)
    (hcert : t.lengths.issuerCaCert = t'.lengths.issuerCaCert)
    (hsig : t.lengths.issuerCaCertSig = t'.lengths.issuerCaCertSig)
    (h : t.hashed cr = t'.hashed cr) : t.SameFields t' := by
  have hwidth : ∀ d d' : Vector UInt8 32, (cr.bytes d).length = (cr.bytes d').length :=
    fun d d' => (length_bytes hbytes d).trans (length_bytes hbytes d').symm
  rw [hashed_eq, hashed_eq] at h
  obtain ⟨hpeer, h⟩ := List.append_inj h hpeer
  obtain ⟨hpow, h⟩ := List.append_inj h (hwidth _ _)
  obtain ⟨hexp, h⟩ := List.append_inj h rfl
  obtain ⟨hissued, h⟩ := List.append_inj h rfl
  obtain ⟨hlevel, h⟩ := List.append_inj h rfl
  obtain ⟨hswarm, h⟩ := List.append_inj h (hwidth _ _)
  obtain ⟨hcert, h⟩ := List.append_inj h hcert
  obtain ⟨hcertSig, hissuer⟩ := List.append_inj h hsig
  simp only [SameFields, mk.injEq, and_true]
  exact ⟨bytes_injective hbytes hswarm, hpeer, bytes_injective hbytes hpow,
    be64_injective hissued, be64_injective hexp, hissuer, hcert, hcertSig,
    asU8_injective (List.singleton_inj.mp hlevel)⟩

/-- The token of these lengths with no byte but zero in it. -/
def zero (n : FieldLengths) : Token (Vector UInt8 32) where
  swarmId := Vector.replicate 32 0
  peer := List.replicate n.peer 0
  pow := Vector.replicate 32 0
  issuedAt := 0
  expAt := 0
  issuer := List.replicate n.issuer 0
  issuerCaCert := List.replicate n.issuerCaCert 0
  issuerCaCertSig := List.replicate n.issuerCaCertSig 0
  trustLevel := .attested
  signature := none

@[simp]
theorem lengths_zero (n : FieldLengths) : (zero n).lengths = n := by
  simp only [lengths, zero, List.length_replicate]

/-- A token of zeros is hashed as zeros. -/
theorem hashed_zero (hbytes : cr.bytes = Vector.toList) (n : FieldLengths) :
    (zero n).hashed cr = List.replicate (81 + n.total) 0 := by
  refine List.eq_replicate_iff.mpr ⟨by rw [length_hashed hbytes, lengths_zero], fun b hb => ?_⟩
  have hbe : be64 0 = List.replicate 8 0 := rfl
  have hlevel : [TrustLevel.attested.asU8] = List.replicate 1 0 := rfl
  simp only [hashed_eq, zero, hbytes, Vector.toList_replicate, hbe, hlevel, List.mem_append,
    List.mem_replicate] at hb
  rcases hb with hb | hb | hb | hb | hb | hb | hb | hb | hb <;> exact hb.2

/-- For all lengths of the fields, any two tokens of these lengths are told apart precisely when
the peers, the certificates and the signatures over them are as long in the one as in the other,
or the fields of the one are longer taken together. -/
theorem tellsApart_iff (hbytes : cr.bytes = Vector.toList) (n n' : FieldLengths) :
    (∀ t t' : Token (Vector UInt8 32), t.lengths = n → t'.lengths = n' → t.TellsApart cr t') ↔
      (n.peer = n'.peer ∧ n.issuerCaCert = n'.issuerCaCert ∧
        n.issuerCaCertSig = n'.issuerCaCertSig) ∨ n.total ≠ n'.total := by
  constructor
  · intro h
    by_contra hnot
    obtain ⟨hcut, htotal⟩ := not_or.mp hnot
    have htotal := not_not.mp htotal
    have hzero := (h (zero n) (zero n') (lengths_zero n) (lengths_zero n')).bytes
    -- the two tokens are the same zeros, cut in different places
    refine hzero (fun hsame => ?_) ?_
    · have hlengths : n = n' := by
        rw [← lengths_zero n, ← lengths_zero n']
        exact congrArg lengths hsame
      rw [hlengths] at hcut
      exact hcut ⟨rfl, rfl, rfl⟩
    · rw [hashed_zero hbytes, hashed_zero hbytes, htotal]
  · rintro h t t' rfl rfl
    refine tellsApart_of_bytes (bytes_injective hbytes) fun hdiffer hsame => ?_
    rcases h with ⟨hpeer, hcert, hsig⟩ | htotal
    · exact hdiffer (sameFields_of_hashed hbytes hpeer hcert hsig hsame)
    · have hlength := congrArg List.length hsame
      rw [length_hashed hbytes, length_hashed hbytes] at hlength
      exact htotal (Nat.add_left_cancel hlength)

/-! ## A byte moves from one field to the next -/

/-- An issuer's Ed25519 public key. -/
def issuerKey : Bytes :=
  numeralBytes 32 0x3d4017c3e843895a92b70aa74d1b7ebc9c982ccf2ec4968cc0cd55f12af4660c

/-- A token with the first bytes of a certificate and of a signature over it. -/
def boundToken : Token (Vector UInt8 32) where
  swarmId := Vector.replicate 32 3
  peer := numeralBytes 32 0xd75a980182b10ab7d54bfed3c964073a0ee172f3daa62325af021a68f707511a
  pow := numeralVector 32 0x000000c31e79d048ec9b69b11838dd6d833411f0034efc85f9d4b8215a4c722a
  issuedAt := 1700000000
  expAt := 1700001800
  issuer := issuerKey
  issuerCaCert := [0x30, 0x82]
  issuerCaCertSig := [0x88, 0x5d]
  trustLevel := .unattested
  signature := some (
    numeralBytes 32 0x9febb52256b3c03af734c6e7fb06d5be0a1f307e4e37efc92c5761b2a0e41a6f ++
    numeralBytes 32 0xb10d2c10d4e960be38078ef1fa457698334427f2532e7ceb6620e1326672de0f)

/-- The token whose certificate has the first byte of the signature. -/
def movedToken : Token (Vector UInt8 32) :=
  { boundToken with issuerCaCert := [0x30, 0x82, 0x88], issuerCaCertSig := [0x5d] }

/-- SHA-256, with the Ed25519 signature that the issuer made over the token. -/
def boundCrypto : Crypto (Vector UInt8 32) Unit Unit where
  digest chunks := Sha256.digest chunks.flatten
  bytes := Vector.toList
  zeros := Vector.replicate 32 0
  verify pubKey data signature := pubKey == issuerKey &&
    data == numeralBytes 32 0x5c39e2a7939cb12252f349949ebc9f0382464e4469e7c000dde3b9f444cbd1f8 &&
    some signature == boundToken.signature
  parseSignature _ := none
  pgpVerify _ _ _ := false

/-- Other tokens with the same lengths are told apart. -/
theorem tellsApart_sample : boundToken.TellsApart boundCrypto { boundToken with expAt := 0 } :=
  (tellsApart_iff rfl boundToken.lengths boundToken.lengths).mpr
    (Or.inl ⟨rfl, rfl, rfl⟩) _ _ rfl rfl

/-- The byte moves, and the signature is valid for both tokens. -/
theorem moved_byte_verifies : ¬ boundToken.TellsApart boundCrypto movedToken ∧
    boundToken.verify boundCrypto 1700000000 = true ∧
    movedToken.verify boundCrypto 1700000000 = true := by
  have hhashed : boundToken.hashed boundCrypto = movedToken.hashed boundCrypto := rfl
  have hdiffer : ¬ boundToken.SameFields movedToken := fun h =>
    absurd (congrArg issuerCaCert h) (by decide)
  exact ⟨fun h => h.bytes hdiffer hhashed, by decide +kernel, by decide +kernel⟩

end FixedWidth

end Token

end Bqti.Dht
