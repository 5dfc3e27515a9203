import Mathlib.Tactic.IntervalCases
import Bqti.Core.Search
import Bqti.Core.Sha256
import Bqti.Dht.Auth.Manager
import Bqti.Torrent.Metainfo

/-!
# Proofs of work inside and outside of the enclave

`SoftwareProver::prove` and the enclave's `pow_calculate` search for a nonce whose digest
starts with enough zero bits, and `PoW::verify` checks one. The first and the last are written
in Rust and the second in C: byte orders, the promotion of the mask and the bounds of arrays
are modelled as each language has them. The enclave runs on a little-endian machine.
-/

namespace Bqti.Enclave

open Bqti.Core Bqti.Torrent Bqti.Dht

/-! ## The specification -/

/-- The bytes start with this many zero bits, the first bit of a byte being its highest. -/
def StartsWithZeros (hash : Bytes) (difficulty : Nat) : Prop :=
  ∀ i < difficulty, ∀ b ∈ hash[i / 8]?, b.toBitVec.getMsbD (i % 8) = false

/-- The digest of a nonce. -/
def powHash (pubKey : Bytes) (challenge nonce : UInt32) : Hash32 :=
  Sha256.digest (pubKey ++ be32 challenge ++ be32 nonce)

/-- A nonce that meets the difficulty. -/
def Meets (pubKey : Bytes) (challenge difficulty nonce : UInt32) : Prop :=
  StartsWithZeros (powHash pubKey challenge nonce).toList difficulty.toNat

/-! ## The software prover -/

/-- How a call ends: it panics or returns. -/
inductive Ended (α : Type*)
  | panicked
  | returned (result : α)
  deriving DecidableEq

section Software

variable {P S R : Type*}

/-- What is returned for a nonce once the digest was signed. -/
def signedPow (signer : Bytes → Option Bytes) (hash : Hash32)
    (challenge nonce difficulty : UInt32) : Except AuthError (PoW Hash32 R) :=
  match signer hash.toList with
  | none => .error .powSignFailed
  | some signature => .ok ⟨hash, challenge, nonce, some signature, none, difficulty⟩

/-- The body of the loop of `prove`. -/
def proveBody (cr : Crypto Hash32 P S) (signer : Bytes → Option Bytes) (publicKey : Bytes)
    (challenge difficulty nonce : UInt32) : Option (Ended (Except AuthError (PoW Hash32 R))) :=
  let hash := PoW.calculate cr publicKey challenge nonce
  match PoW.validate (cr.bytes hash) difficulty with
  | none => some .panicked
  | some true => some (.returned (signedPow signer hash challenge nonce difficulty))
  | some false => none

/-- The search of the software prover. -/
def prove (cr : Crypto Hash32 P S) (signer : Bytes → Option Bytes) (publicKey : Bytes)
    (challenge difficulty : UInt32) (fuel : Nat) :
    Option (Ended (Except AuthError (PoW Hash32 R))) :=
  search (proveBody cr signer publicKey challenge difficulty) fuel 0

end Software

/-! ## The enclave -/

/-- A public key of the enclave. -/
abbrev PubKey := Vector UInt8 32

/-- The bytes of a word the other way round. -/
def bswap32 (n : UInt32) : UInt32 :=
  n <<< 24 ||| (n <<< 8 &&& (0xFF0000 : UInt32)) ||| (n >>> 8 &&& (0xFF00 : UInt32)) ||| n >>> 24

/-- The mask is shifted as an `int` and cut to a byte when it is stored. -/
def difficultyMask (remainingBits : Nat) : UInt8 := UInt8.ofNat (0xFF <<< (8 - remainingBits))

/-- The loop over the whole bytes and the test of the bits that remain; `none` models a read
outside of the array. -/
def meetsDifficulty (hash : Bytes) (difficulty : UInt32) : Option Bool :=
  let fullBytes := (difficulty / 8).toNat
  let remainingBits := (difficulty % 8).toNat
  match PoW.zeroBytes hash fullBytes with
  | none => none
  | some false => some false
  | some true =>
      if remainingBits > 0 then
        match hash[fullBytes]? with
        | none => none
        | some b => some (b.toNat &&& (difficultyMask remainingBits).toNat == 0)
      else some true

/-- The digest of the public key and of the two words as they lie in memory. -/
def enclaveHash (pubKey : PubKey) (challenge nonce : UInt32) : Hash32 :=
  Sha256.digest (pubKey.toList ++ le32 (bswap32 challenge) ++ le32 (bswap32 nonce))

/-- The body of the loop of `pow_calculate`; `panicked` stands for undefined behaviour. -/
def powBody (pubKey : PubKey) (challenge difficulty nonce : UInt32) :
    Option (Ended (UInt32 × Hash32)) :=
  let hash := enclaveHash pubKey challenge nonce
  match meetsDifficulty hash.toList difficulty with
  | none => some .panicked
  | some true => some (.returned (nonce, hash))
  | some false => none

/-- The search of the enclave. -/
def powCalculate (pubKey : PubKey) (challenge difficulty : UInt32) (fuel : Nat) :
    Option (Ended (UInt32 × Hash32)) :=
  search (powBody pubKey challenge difficulty) fuel 0

/-! ## Both tests are the specification -/

/-- A word that is turned round lies in memory with its highest byte first. -/
theorem le32_bswap32 (n : UInt32) : le32 (bswap32 n) = be32 n := by
  simp only [le32, be32, List.reverse_cons, List.reverse_nil, List.nil_append, List.cons_append,
    List.cons.injEq, and_true]
  refine ⟨?_, ?_, ?_, ?_⟩
  all_goals
    apply UInt8.toBitVec_inj.mp
    apply BitVec.eq_of_getLsbD_eq
    intro i hi
    simp only [bswap32, UInt32.toBitVec_toUInt8, UInt32.toBitVec_shiftRight, UInt32.toBitVec_or,
      UInt32.toBitVec_and, UInt32.toBitVec_shiftLeft]
    interval_cases i <;> simp

/-- The enclave hashes what the verifier does. -/
theorem enclaveHash_eq (pubKey : PubKey) (challenge nonce : UInt32) :
    enclaveHash pubKey challenge nonce = powHash pubKey.toList challenge nonce := by
  rw [enclaveHash, powHash, le32_bswap32, le32_bswap32]

/-- The loop over the whole bytes. -/
theorem zeroBytes_eq {hash : Bytes} {n : Nat} (h : n ≤ hash.length) :
    PoW.zeroBytes hash n = some (decide (∀ i < n, hash[i]? = some 0)) := by
  induction hash generalizing n with
  | nil =>
    obtain rfl : n = 0 := by simpa using h
    simp [PoW.zeroBytes]
  | cons b hash ih =>
    cases n with
    | zero => simp [PoW.zeroBytes]
    | succ n =>
      rw [List.length_cons] at h
      rw [PoW.zeroBytes]
      by_cases hb : b = 0
      · subst hb
        rw [if_neg (by simp), ih (by omega)]
        congr 1
        rw [decide_eq_decide]
        constructor
        · intro hall i hi
          cases i with
          | zero => rfl
          | succ i => exact hall i (by omega)
        · exact fun hall i hi => hall (i + 1) (by omega)
      · rw [if_pos hb]
        congr 1
        symm
        rw [decide_eq_false_iff_not]
        exact fun hall => hb (Option.some.inj (hall 0 (by omega)))

/-- A byte is zero if its bits are. -/
theorem eq_zero_iff_bits (b : UInt8) : b = 0 ↔ ∀ j < 8, b.toBitVec.getMsbD j = false := by
  constructor
  · rintro rfl j -
    exact BitVec.getMsbD_zero
  · intro h
    apply UInt8.toBitVec_inj.mp
    apply BitVec.eq_of_getMsbD_eq
    intro j hj
    rw [h j hj]
    exact BitVec.getMsbD_zero.symm

/-- Zero bits are whole zero bytes and the bits that remain. -/
theorem startsWithZeros_iff {hash : Bytes} {d : Nat} (h : d ≤ 8 * hash.length) :
    StartsWithZeros hash d ↔ (∀ i < d / 8, hash[i]? = some 0) ∧
      ∀ b ∈ hash[d / 8]?, ∀ j < d % 8, b.toBitVec.getMsbD j = false := by
  constructor
  · intro hzeros
    constructor
    · intro i hi
      have hlt : i < hash.length := by omega
      rw [List.getElem?_eq_getElem hlt, Option.some.injEq, eq_zero_iff_bits]
      intro j hj
      have hbit := hzeros (8 * i + j) (by omega) hash[i]
      rw [show (8 * i + j) / 8 = i by omega, show (8 * i + j) % 8 = j by omega] at hbit
      exact hbit (List.getElem?_eq_getElem hlt)
    · intro b hb j hj
      have hbit := hzeros (8 * (d / 8) + j) (by omega) b
      rw [show (8 * (d / 8) + j) / 8 = d / 8 by omega,
        show (8 * (d / 8) + j) % 8 = j by omega] at hbit
      exact hbit hb
  · rintro ⟨hbytes, hbits⟩ i hi b hb
    by_cases hwhole : i / 8 < d / 8
    · rw [hbytes (i / 8) hwhole] at hb
      obtain rfl := Option.some.inj hb
      exact (eq_zero_iff_bits 0).mp rfl _ (Nat.mod_lt _ (by decide))
    · have hlast : i / 8 = d / 8 := by omega
      rw [hlast] at hb
      exact hbits b hb (i % 8) (by omega)

instance (hash : Bytes) (d : Nat) : Decidable (StartsWithZeros hash d) :=
  inferInstanceAs (Decidable (∀ i < d, ∀ b ∈ hash[i / 8]?, _))

instance (pubKey : Bytes) (challenge difficulty nonce : UInt32) :
    Decidable (Meets pubKey challenge difficulty nonce) :=
  inferInstanceAs (Decidable (StartsWithZeros _ _))

/-- The mask of Rust leaves the bits that have to be zero. -/
theorem and_mask_eq (b : UInt8) : ∀ r < 8, 0 < r →
    (b &&& ((0xFF : UInt8) <<< (8 - r).toUInt8) == 0) =
      decide (∀ j < r, b.toBitVec.getMsbD j = false) := by
  have hall : ∀ n < 256, ∀ r < 8, 0 < r →
      (UInt8.ofNat n &&& ((0xFF : UInt8) <<< (8 - r).toUInt8) == 0) =
        decide (∀ j < r, (UInt8.ofNat n).toBitVec.getMsbD j = false) := by decide +kernel
  have hb := hall b.toNat b.toNat_lt
  rwa [UInt8.ofNat_toNat] at hb

/-- The mask of C is the same. -/
theorem difficultyMask_eq : ∀ r < 8, 0 < r →
    difficultyMask r = (0xFF : UInt8) <<< (8 - r).toUInt8 := by decide

/-- The mask of the difficulty keeps the first bits. -/
theorem and_difficultyMask_eq (b : UInt8) : ∀ r < 8, 0 < r →
    (b.toNat &&& (difficultyMask r).toNat == 0) =
      decide (∀ j < r, b.toBitVec.getMsbD j = false) := by
  intro r hr hpos
  rw [difficultyMask_eq r hr hpos, ← and_mask_eq b r hr hpos, ← UInt8.toNat_and, Bool.eq_iff_iff,
    beq_iff_eq, beq_iff_eq, ← UInt8.toNat_inj]
  rfl

/-- Whole bytes, then the bits that remain, whichever way the bits are tested. -/
theorem tested_eq {hash : Bytes} {d : Nat} (h : d ≤ 8 * hash.length) {test : Nat → UInt8 → Bool}
    (htest : ∀ b, ∀ r < 8, 0 < r →
      test r b = decide (∀ j < r, b.toBitVec.getMsbD j = false)) :
    (match PoW.zeroBytes hash (d / 8) with
      | none => none
      | some false => some false
      | some true =>
          if d % 8 > 0 then
            match hash[d / 8]? with
            | none => none
            | some b => some (test (d % 8) b)
          else some true) = some (decide (StartsWithZeros hash d)) := by
  rw [zeroBytes_eq (by omega)]
  by_cases hbytes : ∀ i < d / 8, hash[i]? = some 0
  · rw [decide_eq_true hbytes]
    dsimp only
    split
    · rename_i hrest
      have hlt : d / 8 < hash.length := by omega
      rw [List.getElem?_eq_getElem hlt]
      dsimp only
      rw [htest _ _ (Nat.mod_lt _ (by decide)) hrest]
      congr 1
      rw [decide_eq_decide, startsWithZeros_iff h, List.getElem?_eq_getElem hlt]
      constructor
      · intro hbits
        refine ⟨hbytes, fun b hb => ?_⟩
        obtain rfl := Option.some.inj hb
        exact hbits
      · exact fun hall => hall.2 _ rfl
    · rename_i hrest
      congr 1
      symm
      rw [decide_eq_true_eq, startsWithZeros_iff h]
      exact ⟨hbytes, fun b _ j hj => by omega⟩
  · rw [decide_eq_false hbytes]
    dsimp only
    congr 1
    symm
    rw [decide_eq_false_iff_not, startsWithZeros_iff h]
    exact fun hall => hbytes hall.1

/-- A hash is valid if it starts with enough zero bits. -/
theorem validate_eq {hash : Bytes} {difficulty : UInt32}
    (h : difficulty.toNat ≤ 8 * hash.length) :
    PoW.validate hash difficulty = some (decide (StartsWithZeros hash difficulty.toNat)) :=
  tested_eq h and_mask_eq

/-- A hash meets the difficulty of the enclave if it starts with enough zero bits. -/
theorem meetsDifficulty_eq {hash : Bytes} {difficulty : UInt32}
    (h : difficulty.toNat ≤ 8 * hash.length) :
    meetsDifficulty hash difficulty =
      some (decide (StartsWithZeros hash difficulty.toNat)) := by
  have hdiv : (difficulty / 8).toNat = difficulty.toNat / 8 := by rw [UInt32.toNat_div]; rfl
  have hmod : (difficulty % 8).toNat = difficulty.toNat % 8 := by rw [UInt32.toNat_mod]; rfl
  simp only [meetsDifficulty, hdiv, hmod]
  exact tested_eq h and_difficultyMask_eq

/-! ## The searches and the verifier -/

/-- The library of the node computes SHA-256, and its digests are their bytes. -/
structure ComputesSha256 {P S : Type*} (cr : Crypto Hash32 P S) : Prop where
  digest_eq : ∀ parts, cr.digest parts = Sha256.digest parts.flatten
  bytes_eq : ∀ hash, cr.bytes hash = hash.toList

section

variable {P S R : Type*} {cr : Crypto Hash32 P S} {publicKey : Bytes}
  {challenge difficulty nonce : UInt32}

/-- The software hashes what the verifier does. -/
theorem calculate_eq (hcr : ComputesSha256 cr) :
    PoW.calculate cr publicKey challenge nonce = powHash publicKey challenge nonce := by
  rw [PoW.calculate, hcr.digest_eq, powHash]
  simp

/-- A difficulty of at most 256 fits a digest. -/
theorem le_digest_length (h : difficulty ≤ 256) (hash : Hash32) :
    difficulty.toNat ≤ 8 * hash.toList.length := by
  have hle := UInt32.le_iff_toNat_le.mp h
  rw [Vector.length_toList]
  exact hle

/-- The software accepts the nonces that meet the difficulty. -/
theorem validate_powHash (hcr : ComputesSha256 cr) (h : difficulty ≤ 256) :
    PoW.validate (cr.bytes (powHash publicKey challenge nonce)) difficulty =
      some (decide (Meets publicKey challenge difficulty nonce)) := by
  rw [hcr.bytes_eq, validate_eq (le_digest_length h _)]
  rfl

/-- The enclave accepts the nonces that meet the difficulty. -/
theorem meetsDifficulty_powHash (h : difficulty ≤ 256) :
    meetsDifficulty (powHash publicKey challenge nonce).toList difficulty =
      some (decide (Meets publicKey challenge difficulty nonce)) := by
  rw [meetsDifficulty_eq (le_digest_length h _)]
  rfl

/-- The software stops at a nonce that meets the difficulty. -/
theorem proveBody_of_meets (hcr : ComputesSha256 cr) (h : difficulty ≤ 256)
    (signer : Bytes → Option Bytes) (hmeets : Meets publicKey challenge difficulty nonce) :
    proveBody (R := R) cr signer publicKey challenge difficulty nonce =
      some (.returned (signedPow signer (powHash publicKey challenge nonce) challenge nonce
        difficulty)) := by
  rw [proveBody, calculate_eq hcr]
  rw [validate_powHash hcr h, decide_eq_true hmeets]

/-- The software goes on behind a nonce that does not. -/
theorem proveBody_of_not_meets (hcr : ComputesSha256 cr) (h : difficulty ≤ 256)
    (signer : Bytes → Option Bytes) (hmeets : ¬ Meets publicKey challenge difficulty nonce) :
    proveBody (R := R) cr signer publicKey challenge difficulty nonce = none := by
  rw [proveBody, calculate_eq hcr]
  rw [validate_powHash hcr h, decide_eq_false hmeets]

/-- The enclave stops at a nonce that meets the difficulty. -/
theorem powBody_of_meets {pubKey : PubKey} (h : difficulty ≤ 256)
    (hmeets : Meets pubKey.toList challenge difficulty nonce) :
    powBody pubKey challenge difficulty nonce =
      some (.returned (nonce, powHash pubKey.toList challenge nonce)) := by
  rw [powBody, enclaveHash_eq]
  rw [meetsDifficulty_powHash h, decide_eq_true hmeets]

/-- The enclave goes on behind a nonce that does not. -/
theorem powBody_of_not_meets {pubKey : PubKey} (h : difficulty ≤ 256)
    (hmeets : ¬ Meets pubKey.toList challenge difficulty nonce) :
    powBody pubKey challenge difficulty nonce = none := by
  rw [powBody, enclaveHash_eq]
  rw [meetsDifficulty_powHash h, decide_eq_false hmeets]

/-- The verifier accepts the digest of a nonce that meets the difficulty, once it is signed. -/
theorem verify_of_meets (hcr : ComputesSha256 cr) (h : difficulty ≤ 256)
    (hmeets : Meets publicKey challenge difficulty nonce) {signature : Bytes}
    (hsignature : cr.verify publicKey (powHash publicKey challenge nonce).toList signature = true)
    (attestation : Option R) :
    PoW.verify cr ⟨powHash publicKey challenge nonce, challenge, nonce, some signature,
      attestation, difficulty⟩ publicKey = some true := by
  rw [PoW.verify]
  dsimp only
  rw [calculate_eq hcr, if_neg (not_not_intro rfl), validate_powHash hcr h,
    decide_eq_true hmeets, hcr.bytes_eq]
  exact congrArg some hsignature

/-- Where some nonce meets the difficulty, the software prover and the enclave both stop at the
least one with the same digest, and the verifier accepts that digest under every signature of
it that the key made. -/
theorem proofs_agree (hcr : ComputesSha256 cr) (signer : Bytes → Option Bytes) (pubKey : PubKey)
    (hdifficulty : difficulty ≤ 256)
    (hexists : ∃ nonce, Meets pubKey.toList challenge difficulty nonce) :
    ∃ nonce hash, hash = Sha256.digest (pubKey.toList ++ be32 challenge ++ be32 nonce) ∧
      StartsWithZeros hash.toList difficulty.toNat ∧
      (∀ m < nonce, ¬ Meets pubKey.toList challenge difficulty m) ∧
      (∀ fuel > nonce.toNat,
        prove (R := R) cr signer pubKey.toList challenge difficulty fuel =
            some (.returned (match signer hash.toList with
              | some signature => .ok ⟨hash, challenge, nonce, some signature, none, difficulty⟩
              | none => .error .powSignFailed)) ∧
          powCalculate pubKey challenge difficulty fuel = some (.returned (nonce, hash))) ∧
      ∀ signature, cr.verify pubKey.toList hash.toList signature = true →
        ∀ attestation : Option R,
          PoW.verify cr ⟨hash, challenge, nonce, some signature, attestation, difficulty⟩
            pubKey.toList = some true := by
  obtain ⟨nonce, hmeets, hleast⟩ := exists_least hexists
  refine ⟨nonce, powHash pubKey.toList challenge nonce, rfl, hmeets, hleast, ?_, ?_⟩
  · intro fuel hfuel
    have hstart : (0 : UInt32) ≤ nonce := UInt32.le_iff_toNat_le.mpr (Nat.zero_le _)
    have henough : nonce.toNat < (0 : UInt32).toNat + fuel := by
      rw [UInt32.toNat_zero, Nat.zero_add]
      exact hfuel
    constructor
    · rw [prove, search_eq_some (proveBody_of_meets hcr hdifficulty signer hmeets)
        (fun m hm => proveBody_of_not_meets hcr hdifficulty signer (hleast m hm)) hstart henough,
        signedPow]
      cases signer (powHash pubKey.toList challenge nonce).toList <;> rfl
    · exact search_eq_some (powBody_of_meets hdifficulty hmeets)
        (fun m hm => powBody_of_not_meets hdifficulty (hleast m hm)) hstart henough
  · exact fun signature hsignature => verify_of_meets hcr hdifficulty hmeets hsignature

end

/-- A library with SHA-256, under which a key signs by writing itself before the data. -/
def sha256Crypto : Crypto Hash32 Unit Unit where
  digest parts := Sha256.digest parts.flatten
  bytes hash := hash.toList
  zeros := Vector.replicate 32 0
  verify pubKey data signature := signature == pubKey ++ data
  parseSignature _ := none
  pgpVerify _ _ _ := false

/-- The public key of the example. -/
def samplePubKey : PubKey := Vector.replicate 32 7

/-- A search that stops after thirty-two nonces have failed. -/
theorem proofs_agree_sample :
    ComputesSha256 sha256Crypto ∧ (4 : UInt32) ≤ 256 ∧ Meets samplePubKey.toList 42 4 32 ∧
      ∃ nonce hash, ∀ fuel > nonce.toNat,
        prove (R := Unit) sha256Crypto (fun data => some (samplePubKey.toList ++ data))
            samplePubKey.toList 42 4 fuel =
          some (.returned (.ok ⟨hash, 42, nonce, some (samplePubKey.toList ++ hash.toList), none,
            4⟩)) ∧
        powCalculate samplePubKey 42 4 fuel = some (.returned (nonce, hash)) := by
  have hcr : ComputesSha256 sha256Crypto := ⟨fun _ => rfl, fun _ => rfl⟩
  have hle : (4 : UInt32) ≤ 256 := by decide
  have hmeets : Meets samplePubKey.toList 42 4 32 := by decide +kernel
  refine ⟨hcr, hle, hmeets, ?_⟩
  obtain ⟨nonce, hash, -, -, -, hstops, -⟩ := proofs_agree (R := Unit) hcr
    (fun data => some (samplePubKey.toList ++ data)) samplePubKey hle ⟨32, hmeets⟩
  exact ⟨nonce, hash, hstops⟩

end Bqti.Enclave
