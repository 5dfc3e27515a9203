import Bqti.Enclave.ProofOfWork

/-!
# Where the search for a nonce ends

The search of the software prover goes on until a nonce meets the difficulty. It does not count
the nonces that it has tried and it does not look at the difficulty, which the bootstrap node
chooses: without a nonce that meets it there is no end, and a difficulty of more bits than a digest
has makes the test read behind the digest.
-/

namespace Bqti.Enclave

open Bqti.Core Bqti.Torrent Bqti.Dht

/-! ## The test of a difficulty -/

/-- The loop over the whole bytes passes zero bytes only, and not more than there are. -/
theorem length_of_zeroBytes {hash : Bytes} {n : Nat} (h : PoW.zeroBytes hash n = some true) :
    n ≤ hash.length := by
  induction hash generalizing n with
  | nil =>
    cases n with
    | zero => exact Nat.le_refl 0
    | succ n => cases h
  | cons b hash ih =>
    cases n with
    | zero => exact Nat.zero_le _
    | succ n =>
      rw [PoW.zeroBytes] at h
      split at h
      · cases h
      · exact Nat.succ_le_succ (ih h)

/-- Zeros are counted as far as the hash goes. -/
theorem zeroBytes_replicate (k n : Nat) :
    PoW.zeroBytes (List.replicate k 0) n = if n ≤ k then some true else none := by
  induction k generalizing n with
  | zero => cases n <;> rfl
  | succ k ih =>
    cases n with
    | zero => rfl
    | succ n =>
      rw [List.replicate_succ, PoW.zeroBytes, if_neg (by simp), ih]
      simp

/-- No digest meets more bits than it has. -/
theorem validate_ne_true {hash : Bytes} {difficulty : UInt32}
    (h : 8 * hash.length < difficulty.toNat) : PoW.validate hash difficulty ≠ some true := by
  intro hvalid
  simp only [PoW.validate] at hvalid
  split at hvalid
  · cases hvalid
  · cases hvalid
  · rename_i hzeros
    have hle := length_of_zeroBytes hzeros
    have hrest : difficulty.toNat % 8 > 0 := by omega
    have hend : hash.length ≤ difficulty.toNat / 8 := by omega
    rw [if_pos hrest, List.getElem?_eq_none hend] at hvalid
    cases hvalid

/-- The test of more bits than that reads behind a digest of zeros. -/
theorem validate_zeros {k : Nat} {difficulty : UInt32} (h : 8 * k < difficulty.toNat) :
    PoW.validate (List.replicate k 0) difficulty = none := by
  simp only [PoW.validate, zeroBytes_replicate]
  by_cases hle : difficulty.toNat / 8 ≤ k
  · have hrest : difficulty.toNat % 8 > 0 := by omega
    have hend : (List.replicate k (0 : UInt8)).length ≤ difficulty.toNat / 8 := by
      rw [List.length_replicate]
      omega
    rw [if_pos hle]
    dsimp only
    rw [if_pos hrest, List.getElem?_eq_none hend]
  · rw [if_neg hle]

/-- The test stays within a digest precisely up to the number of its bits. -/
theorem validate_inBounds_iff {difficulty : UInt32} :
    (∀ hash : Hash32, PoW.validate hash.toList difficulty ≠ none) ↔ difficulty ≤ 256 := by
  constructor
  · intro hall
    by_contra hgt
    have hlt := UInt32.lt_iff_toNat_lt.mp (UInt32.not_le.mp hgt)
    refine hall (Vector.replicate 32 0) ?_
    rw [Vector.toList_replicate]
    exact validate_zeros (by simpa using hlt)
  · intro hle hash
    rw [validate_eq (le_digest_length hle hash)]
    exact Option.some_ne_none _

/-! ## The end of the search -/

section

variable {P S R : Type*} {cr : Crypto Hash32 P S} {signer : Bytes → Option Bytes}
  {publicKey : Bytes} {challenge difficulty : UInt32}

/-- What the search has to return: a proof for a nonce that meets the difficulty, or an error if
none does. -/
def Answers (publicKey : Bytes) (challenge difficulty : UInt32) :
    Except AuthError (PoW Hash32 R) → Prop
  | .ok pow => Meets publicKey challenge difficulty pow.nonce
  | .error _ => ∀ nonce, ¬ Meets publicKey challenge difficulty nonce

/-- The search ends with an answer, and its test stays within the digests. -/
structure Terminates (R : Type*) (cr : Crypto Hash32 P S) (signer : Bytes → Option Bytes)
    (publicKey : Bytes) (challenge difficulty : UInt32) : Prop where
  ends : ∃ fuel, ∃ result : Except AuthError (PoW Hash32 R),
    prove cr signer publicKey challenge difficulty fuel = some (.returned result) ∧
      Answers publicKey challenge difficulty result
  inBounds : ∀ hash : Hash32, PoW.validate hash.toList difficulty ≠ none

/-- What is returned is made of a nonce that the test has passed. -/
theorem passed_of_prove {fuel : Nat} {result : Except AuthError (PoW Hash32 R)}
    (h : prove cr signer publicKey challenge difficulty fuel = some (.returned result)) :
    ∃ nonce, PoW.validate (cr.bytes (PoW.calculate cr publicKey challenge nonce)) difficulty =
        some true ∧
      result = signedPow signer (PoW.calculate cr publicKey challenge nonce) challenge nonce
        difficulty := by
  obtain ⟨nonce, hbody⟩ := exists_of_search h
  refine ⟨nonce, ?_⟩
  simp only [proveBody] at hbody
  split at hbody
  · cases hbody
  · rename_i hvalid
    cases hbody
    exact ⟨hvalid, rfl⟩
  · cases hbody

/-- Without a nonce that meets the difficulty the search does not return. -/
theorem meets_of_prove (hcr : ComputesSha256 cr) {fuel : Nat}
    {result : Except AuthError (PoW Hash32 R)}
    (h : prove cr signer publicKey challenge difficulty fuel = some (.returned result)) :
    difficulty ≤ 256 ∧ ∃ nonce, Meets publicKey challenge difficulty nonce := by
  obtain ⟨nonce, hvalid, -⟩ := passed_of_prove h
  have hle : difficulty ≤ 256 := by
    by_contra hgt
    refine validate_ne_true ?_ hvalid
    rw [hcr.bytes_eq, Vector.length_toList]
    exact UInt32.lt_iff_toNat_lt.mp (UInt32.not_le.mp hgt)
  refine ⟨hle, nonce, ?_⟩
  rw [calculate_eq hcr, validate_powHash hcr hle, Option.some.injEq, decide_eq_true_eq] at hvalid
  exact hvalid

/-- With one, the search returns what is made of the least one. -/
theorem prove_of_least (hcr : ComputesSha256 cr) (signer : Bytes → Option Bytes)
    (hle : difficulty ≤ 256) {nonce : UInt32}
    (hmeets : Meets publicKey challenge difficulty nonce)
    (hleast : ∀ m < nonce, ¬ Meets publicKey challenge difficulty m) {fuel : Nat}
    (hfuel : nonce.toNat < fuel) :
    prove (R := R) cr signer publicKey challenge difficulty fuel =
      some (.returned (signedPow signer (powHash publicKey challenge nonce) challenge nonce
        difficulty)) := by
  refine search_eq_some (proveBody_of_meets hcr hle signer hmeets)
    (fun m hm => proveBody_of_not_meets hcr hle signer (hleast m hm))
    (UInt32.le_iff_toNat_le.mpr (Nat.zero_le _)) ?_
  rw [UInt32.toNat_zero, Nat.zero_add]
  exact hfuel

/-- For every key, challenge and difficulty the search ends as it has to precisely when the
difficulty is no more than the bits of a digest, some nonce meets it and the key signs the digest
of the least such nonce. -/
theorem terminates_iff (hcr : ComputesSha256 cr) (signer : Bytes → Option Bytes)
    (publicKey : Bytes) (challenge difficulty : UInt32) :
    Terminates R cr signer publicKey challenge difficulty ↔ difficulty ≤ 256 ∧
      ∃ nonce, Meets publicKey challenge difficulty nonce ∧
        (∀ m < nonce, ¬ Meets publicKey challenge difficulty m) ∧
        (signer (powHash publicKey challenge nonce).toList).isSome := by
  constructor
  · rintro ⟨⟨fuel, result, hprove, hanswers⟩, -⟩
    obtain ⟨hle, hexists⟩ := meets_of_prove hcr hprove
    obtain ⟨nonce, hmeets, hleast⟩ := exists_least hexists
    refine ⟨hle, nonce, hmeets, hleast, ?_⟩
    -- With enough fuel for the least nonce the result is still the same.
    have hsame := search_mono hprove (Nat.le_max_left fuel (nonce.toNat + 1))
    have hfound := prove_of_least (R := R) hcr signer hle hmeets hleast
      (Nat.le_max_right fuel (nonce.toNat + 1))
    have hresult := Ended.returned.inj (Option.some.inj (hsame.symm.trans hfound))
    by_contra hrefused
    rw [hresult, signedPow, Option.not_isSome_iff_eq_none.mp hrefused] at hanswers
    exact hanswers nonce hmeets
  · rintro ⟨hle, nonce, hmeets, hleast, hsigns⟩
    obtain ⟨signature, hsignature⟩ := Option.isSome_iff_exists.mp hsigns
    have hends := prove_of_least (R := R) hcr signer hle hmeets hleast (Nat.lt_succ_self _)
    refine ⟨⟨nonce.toNat + 1, _, hends, ?_⟩, validate_inBounds_iff.mpr hle⟩
    rw [signedPow, hsignature]
    exact hmeets

end

/-- A key that signs by writing itself before the data. -/
def sampleSigner (data : Bytes) : Option Bytes := some (samplePubKey.toList ++ data)

/-- The sample software computes SHA-256. -/
theorem computesSha256_sample : ComputesSha256 sha256Crypto := ⟨fun _ => rfl, fun _ => rfl⟩

/-- A search over thirty-three nonces. -/
theorem terminates_sample :
    Terminates Unit sha256Crypto sampleSigner samplePubKey.toList 42 4 := by
  have hmeets : ∃ nonce, Meets samplePubKey.toList 42 4 nonce := ⟨32, by decide +kernel⟩
  obtain ⟨nonce, hmeets, hleast⟩ := exists_least hmeets
  exact (terminates_iff computesSha256_sample _ _ _ _).mpr
    ⟨by decide, nonce, hmeets, hleast, Option.isSome_some⟩

/-- A bootstrap node that asks for 257 bits: the search never returns, and a digest of zeros
would be read behind its end. -/
theorem search_without_end :
    (∀ fuel result, prove (R := Unit) sha256Crypto sampleSigner samplePubKey.toList 42 257 fuel ≠
      some (.returned result)) ∧
    PoW.validate (List.replicate 32 0) 257 = none ∧
    ¬ Terminates Unit sha256Crypto sampleSigner samplePubKey.toList 42 257 := by
  refine ⟨fun fuel result h => ?_, by decide, fun h => ?_⟩
  · exact absurd (meets_of_prove computesSha256_sample h).1 (by decide)
  · exact absurd (validate_inBounds_iff.mp h.inBounds) (by decide)

end Bqti.Enclave
