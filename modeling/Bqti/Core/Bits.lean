import Bqti.Core.Ranking

/-!
# Bits of byte strings

The bits of a byte string are numbered from the highest bit of its first byte. The number that the
bytes spell has them as its binary digits, so that it is small exactly if the first bits are zero.
-/

namespace Bqti.Core

/-- A bit of a byte string, the highest of the first byte first; past its end all bits are zero. -/
def bitAt (bs : Bytes) (i : Nat) : Bool := (bs.getD (i / 8) 0).toNat.testBit (7 - i % 8)

/-- The first eight bits are those of the first byte. -/
theorem bitAt_cons_of_lt (b : UInt8) (bs : Bytes) {i : Nat} (hi : i < 8) :
    bitAt (b :: bs) i = b.toNat.testBit (7 - i) := by
  rw [bitAt, Nat.div_eq_of_lt hi, Nat.mod_eq_of_lt hi, List.getD_cons_zero]

/-- The later bits are those of the later bytes. -/
theorem bitAt_cons_add (b : UInt8) (bs : Bytes) (i : Nat) :
    bitAt (b :: bs) (i + 8) = bitAt bs i := by
  rw [bitAt, Nat.add_div_right i (by decide), Nat.add_mod_right, List.getD_cons_succ, bitAt]

/-- A byte has eight bits. -/
theorem two_pow_eight_mul (n : Nat) : 256 ^ n = 2 ^ (8 * n) := by
  rw [Nat.pow_mul]

/-- The bits are the binary digits of the number. -/
theorem testBit_numeral {bs : Bytes} {i : Nat} (hi : i < 8 * bs.length) :
    (numeral bs).testBit (8 * bs.length - 1 - i) = bitAt bs i := by
  induction bs generalizing i with
  | nil => simp at hi
  | cons b bs ih =>
    rw [List.length_cons] at hi ⊢
    have hrest : numeral bs < 2 ^ (8 * bs.length) := two_pow_eight_mul bs.length ▸ numeral_lt bs
    rw [numeral, two_pow_eight_mul, Nat.mul_comm, Nat.testBit_two_pow_mul_add _ hrest]
    by_cases hfirst : i < 8
    · have hpos : 8 * (bs.length + 1) - 1 - i - 8 * bs.length = 7 - i := by omega
      rw [if_neg (by omega), hpos, bitAt_cons_of_lt b bs hfirst]
    · obtain ⟨j, rfl⟩ : ∃ j, i = j + 8 := ⟨i - 8, by omega⟩
      have hpos : 8 * (bs.length + 1) - 1 - (j + 8) = 8 * bs.length - 1 - j := by omega
      rw [if_pos (by omega), hpos, ih (by omega), bitAt_cons_add]

/-- The number is below a power of two exactly if the bits before are zero. -/
theorem numeral_lt_two_pow_iff {bs : Bytes} {d : Nat} (hd : d ≤ 8 * bs.length) :
    numeral bs < 2 ^ (8 * bs.length - d) ↔ ∀ i < d, bitAt bs i = false := by
  constructor
  · intro hlt i hi
    rw [← testBit_numeral (hi.trans_le hd)]
    exact Nat.testBit_lt_two_pow (hlt.trans_le (Nat.pow_le_pow_right (by decide) (by omega)))
  · intro hzero
    refine Nat.lt_pow_two_of_testBit _ fun k hk => ?_
    by_cases hlength : k < 8 * bs.length
    · have hbit := hzero (8 * bs.length - 1 - k) (by omega)
      rw [← testBit_numeral (by omega)] at hbit
      have hpos : 8 * bs.length - 1 - (8 * bs.length - 1 - k) = k := by omega
      rwa [hpos] at hbit
    · have hsize : numeral bs < 2 ^ k :=
        (two_pow_eight_mul bs.length ▸ numeral_lt bs).trans_le
          (Nat.pow_le_pow_right (by decide) (Nat.not_lt.mp hlength))
      exact Nat.testBit_lt_two_pow hsize

end Bqti.Core
