import Bqti.Core.Bits
import Bqti.Enclave.ProofOfWork

/-!
# Difficulty as a bound

The zero bits at the start of a digest bound the number that the digest spells. The node and the
enclave both test that bound, whatever part of a byte the difficulty ends in.
-/

namespace Bqti.Enclave

open Bqti.Core Bqti.Torrent Bqti.Dht

/-- The bits that are asked to be zero are those of the byte string. -/
theorem startsWithZeros_iff_bitAt {hash : Bytes} {d : Nat} :
    StartsWithZeros hash d ↔ ∀ i < d, bitAt hash i = false := by
  refine forall₂_congr fun i _ => ?_
  have hmod : i % 8 < 8 := Nat.mod_lt _ (by decide)
  rw [bitAt, List.getD_eq_getElem?_getD]
  cases hash[i / 8]? with
  | none => simp
  | some b =>
    simp only [Option.mem_def, Option.some.injEq, forall_eq', Option.getD_some]
    rw [BitVec.getMsbD, decide_eq_true hmod, Bool.true_and, BitVec.getLsbD]
    rfl

/-- A hash starts with zeros if its numeral is small. -/
theorem startsWithZeros_iff_numeral {hash : Bytes} {d : Nat} (h : d ≤ 8 * hash.length) :
    StartsWithZeros hash d ↔ numeral hash < 2 ^ (8 * hash.length - d) :=
  startsWithZeros_iff_bitAt.trans (numeral_lt_two_pow_iff h).symm

/-- Fewer zero bits are met as well. -/
theorem StartsWithZeros.mono {hash : Bytes} {d e : Nat} (h : StartsWithZeros hash d) (he : e ≤ d) :
    StartsWithZeros hash e :=
  fun i hi => h i (hi.trans_le he)

/-- A hash is valid if its numeral is below the bound of the difficulty. -/
theorem validate_eq_numeral (hash : Hash32) {difficulty : UInt32} (h : difficulty ≤ 256) :
    PoW.validate hash.toList difficulty =
      some (decide (numeral hash.toList < 2 ^ (256 - difficulty.toNat))) := by
  have hle := le_digest_length h hash
  rw [validate_eq hle]
  congr 1
  rw [decide_eq_decide, startsWithZeros_iff_numeral hle, Vector.length_toList]

/-- A digest meets a difficulty exactly if its number is below the bound, so that it meets every
smaller difficulty, and the enclave decides the same. -/
theorem difficulty_bounds_numeral (hash : Hash32) (difficulty : UInt32) (h : difficulty ≤ 256) :
    PoW.validate hash.toList difficulty =
      some (decide (numeral hash.toList < 2 ^ (256 - difficulty.toNat))) ∧
    meetsDifficulty hash.toList difficulty = PoW.validate hash.toList difficulty ∧
    ∀ easier ≤ difficulty, PoW.validate hash.toList difficulty = some true →
      PoW.validate hash.toList easier = some true := by
  have hle := le_digest_length h hash
  refine ⟨validate_eq_numeral hash h, by rw [meetsDifficulty_eq hle, validate_eq hle], ?_⟩
  intro easier heasier hmeets
  have hle' := le_digest_length (UInt32.le_trans heasier h) hash
  rw [validate_eq hle, Option.some.injEq, decide_eq_true_eq] at hmeets
  rw [validate_eq hle', decide_eq_true (hmeets.mono (UInt32.le_iff_toNat_le.mp heasier))]

/-- A digest of which the first fifteen bits are zero. -/
def fifteenZeros : Hash32 := Vector.ofFn fun i => if i = 0 then 0 else if i = 1 then 1 else 0xFF

/-- Fifteen zeros are enough for a difficulty of 15 and more than enough for 7. -/
theorem difficulty_bounds_fifteenZeros :
    PoW.validate fifteenZeros.toList 15 = some true ∧
    meetsDifficulty fifteenZeros.toList 15 = some true ∧
    PoW.validate fifteenZeros.toList 7 = some true := by
  obtain ⟨hbound, hagree, heasier⟩ := difficulty_bounds_numeral fifteenZeros 15 (by decide)
  have hmeets : PoW.validate fifteenZeros.toList 15 = some true := by
    rw [hbound]
    decide +kernel
  exact ⟨hmeets, hagree.trans hmeets, heasier 7 (by decide) hmeets⟩

end Bqti.Enclave
