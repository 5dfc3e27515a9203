import Bqti.Core.Sha256
import Bqti.Core.Stream
import Bqti.Session.Transfer

/-!
# Signed pieces

A seeder signs the digest of the index and the data of a piece and puts the signature behind the
data. The requester takes the last 64 bytes off again. Since the index has a fixed width, no other
index and data have the same digest, as far as the digest has no collision.
-/

namespace Bqti.Session

open Bqti.Core Bqti.Dht Bqti.Session.Peers

variable {D P S E : Type*} {cr : Crypto D P S} {sign : Bytes → Except E Bytes}
  {pubKey message data sig : Bytes} {index : UInt32}

/-- The prover makes a signature of the right length over a message, and the public key accepts
it for this message and for no other. -/
structure Signs (cr : Crypto D P S) (sign : Bytes → Except E Bytes)
    (pubKey message sig : Bytes) : Prop where
  made : sign message = .ok sig
  length_eq : sig.length = signatureLength
  verifies : cr.verify pubKey message sig = true
  only : ∀ other, cr.verify pubKey other sig = true → other = message

/-- No other input has the digest of this one. -/
def NoCollision (cr : Crypto D P S) (parts : List Bytes) : Prop :=
  ∀ others, cr.bytes (cr.digest others) = cr.bytes (cr.digest parts) →
    others.flatten = parts.flatten

/-! ## The payload -/

/-- The last 64 bytes are taken off whatever nonempty data they are behind. -/
theorem splitPayload_append (hdata : data ≠ []) (hsig : sig.length = signatureLength) :
    splitPayload (data ++ sig) = some (data, sig) := by
  have hpos := List.length_pos_iff.mpr hdata
  have hcut : (data ++ sig).length - signatureLength = data.length := by
    rw [List.length_append, hsig]
    omega
  rw [splitPayload, if_neg, hcut, List.take_left, List.drop_left]
  rw [List.length_append, hsig]
  omega

/-- A payload without data is not split. -/
theorem splitPayload_of_short {payload : Bytes} (h : payload.length ≤ signatureLength) :
    splitPayload payload = none := if_pos h

/-! ## The digest -/

/-- Different numbers have different bytes. -/
theorem le32_injective : Function.Injective le32 := by
  intro n m h
  have hbytes : be32 n = be32 m := List.reverse_injective h
  have hn := ofBe32_be32_append n []
  rw [hbytes, ofBe32_be32_append m []] at hn
  exact (Option.some.inj hn).symm

/-- The index and the data are read off their concatenation. -/
theorem eq_of_hashed_eq {index' : UInt32} {data' : Bytes}
    (h : [le32 index', data'].flatten = [le32 index, data].flatten) :
    (index', data') = (index, data) := by
  simp only [List.flatten_cons, List.flatten_nil, List.append_nil] at h
  obtain ⟨hindex, hdata⟩ := List.append_inj h (by rfl)
  rw [le32_injective hindex, hdata]

/-! ## Codec and binding -/

/-- The payload of a piece splits into the data and the signature, which verifies for this index
and this data only; what is too short for a signature and data is rejected. -/
theorem piece_payload (hdata : data ≠ [])
    (hsig : Signs cr sign pubKey (pieceHash cr index data) sig)
    (hdigest : NoCollision cr [le32 index, data]) :
    (∃ payload, makePayload cr sign index data = .ok payload ∧
      splitPayload payload = some (data, sig) ∧
      makeRequest cr index pubKey (some payload) = some data) ∧
    verifyPiece cr index data sig pubKey = true ∧
    (∀ index' data', (index', data') ≠ (index, data) →
      verifyPiece cr index' data' sig pubKey = false) ∧
    ∀ payload, payload.length ≤ signatureLength →
      splitPayload payload = none ∧
        ∀ index', makeRequest cr index' pubKey (some payload) = none := by
  have hsplit := splitPayload_append hdata hsig.length_eq
  refine ⟨⟨data ++ sig, ?_, hsplit, ?_⟩, hsig.verifies, fun index' data' hne => ?_,
    fun payload hshort => ⟨splitPayload_of_short hshort, fun index' => ?_⟩⟩
  · rw [makePayload, hsig.made]
  · rw [makeRequest, hsplit]
    exact if_pos hsig.verifies
  · rw [← Bool.not_eq_true]
    intro hverify
    exact hne (eq_of_hashed_eq (hdigest _ (hsig.only _ hverify)))
  · rw [makeRequest, splitPayload_of_short hshort]

/-- SHA-256 of the index 7 and three bytes, and an injective digest otherwise; a signature
repeats the digest that it is made over. -/
def boundCrypto : Crypto Bytes Unit Unit where
  digest parts :=
    if parts.flatten = le32 7 ++ [1, 2, 3] then (Sha256.digest parts.flatten).toList
    else List.replicate 33 0 ++ parts.flatten
  bytes := id
  zeros := []
  verify _ data signature := signature == data ++ data
  parseSignature _ := none
  pgpVerify _ _ _ := false

/-- The prover of these signatures. -/
def boundSign (message : Bytes) : Except Unit Bytes := .ok (message ++ message)

/-- The hash of the sample piece. -/
theorem pieceHash_boundCrypto :
    pieceHash boundCrypto 7 [1, 2, 3] = (Sha256.digest (le32 7 ++ [1, 2, 3])).toList := rfl

/-- The sample signature is accepted for the sample piece. -/
theorem signs_boundSign : Signs boundCrypto boundSign [] (pieceHash boundCrypto 7 [1, 2, 3])
    (pieceHash boundCrypto 7 [1, 2, 3] ++ pieceHash boundCrypto 7 [1, 2, 3]) where
  made := rfl
  length_eq := by
    rw [pieceHash_boundCrypto, List.length_append, Vector.length_toList]
    rfl
  verifies := by simp [boundCrypto]
  only other h := by
    have heq : _ ++ _ = other ++ other := eq_of_beq h
    have hlen := congrArg List.length heq
    simp only [List.length_append] at hlen
    exact (List.append_inj heq (by omega)).1.symm

/-- The sample library has no collision on the sample piece. -/
theorem noCollision_boundCrypto : NoCollision boundCrypto [le32 7, [1, 2, 3]] := by
  intro others h
  by_cases hsame : others.flatten = le32 7 ++ [1, 2, 3]
  · rw [hsame]
    rfl
  · have hothers : boundCrypto.bytes (boundCrypto.digest others) =
        List.replicate 33 0 ++ others.flatten := if_neg hsame
    have hlen := congrArg List.length (hothers.symm.trans (h.trans pieceHash_boundCrypto))
    rw [List.length_append, List.length_replicate, Vector.length_toList] at hlen
    omega

/-- The sample piece is accepted under its own number only. -/
theorem piece_payload_bound :
    (∃ payload, makePayload boundCrypto boundSign 7 [1, 2, 3] = .ok payload ∧
      makeRequest boundCrypto 7 [] (some payload) = some [1, 2, 3]) ∧
    verifyPiece boundCrypto 8 [1, 2, 3]
      (pieceHash boundCrypto 7 [1, 2, 3] ++ pieceHash boundCrypto 7 [1, 2, 3]) [] = false := by
  obtain ⟨⟨payload, hmake, -, hrequest⟩, -, hother, -⟩ :=
    piece_payload (by decide) signs_boundSign noCollision_boundCrypto
  exact ⟨⟨payload, hmake, hrequest⟩, hother 8 [1, 2, 3] (by decide)⟩

end Bqti.Session
