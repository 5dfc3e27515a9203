import Mathlib.Algebra.Order.Ring.Int
import Mathlib.Data.Nat.Basic
import Mathlib.Tactic.Common

/-!
# Fixed-width machine arithmetic over naturals

Unsigned machine integers are naturals; every sum or product that the program
could overflow is reduced explicitly, so that the absence of overflow is a proved
side condition and never a property of the representation.
-/

namespace Bqti.Core

/-- The bytes of a file, a message or a buffer. -/
abbrev Bytes := List UInt8

/-- Reduce a 64-bit result as the release build does. -/
def u64 (n : Nat) : Nat := n % 2 ^ 64

/-- A result that fits is not changed by the reduction. -/
theorem u64_of_lt {n : Nat} (h : n < 2 ^ 64) : u64 n = n := Nat.mod_eq_of_lt h

/-- Summands may be reduced before the sum is. -/
theorem u64_add (m n : Nat) : u64 (u64 m + u64 n) = u64 (m + n) := (Nat.add_mod m n _).symm

/-- The two's-complement cast of a signed 64-bit value to an unsigned one. -/
def i64AsU64 (z : Int) : Nat := (z % 2 ^ 64).toNat

/-- Nonnegative values keep their magnitude under the cast. -/
theorem i64AsU64_natCast {n : Nat} (h : n < 2 ^ 63) : i64AsU64 (n : Int) = n := by
  unfold i64AsU64
  omega

/-- The two's-complement cast of an unsigned 64-bit value to a signed one. -/
def u64AsI64 (n : Nat) : Int := Int.bmod n (2 ^ 64)

/-- Small values keep their magnitude under the cast. -/
theorem u64AsI64_of_lt {n : Nat} (h : n < 2 ^ 63) : u64AsI64 n = n := by
  unfold u64AsI64
  rw [Int.bmod_eq_of_le] <;> omega

/-- The big-endian bytes of a 32-bit word. -/
def be32 (n : UInt32) : Bytes :=
  [(n >>> 24).toUInt8, (n >>> 16).toUInt8, (n >>> 8).toUInt8, n.toUInt8]

/-- The little-endian bytes of a 32-bit word. -/
def le32 (n : UInt32) : Bytes := (be32 n).reverse

/-- The big-endian bytes of a 64-bit word. -/
def be64 (n : UInt64) : Bytes :=
  [(n >>> 56).toUInt8, (n >>> 48).toUInt8, (n >>> 40).toUInt8, (n >>> 32).toUInt8,
    (n >>> 24).toUInt8, (n >>> 16).toUInt8, (n >>> 8).toUInt8, n.toUInt8]

@[simp]
theorem length_be64 (n : UInt64) : (be64 n).length = 8 := rfl

/-- The bytes tell the word. -/
theorem be64_injective : Function.Injective be64 := by
  intro m n h
  simp only [be64, List.cons.injEq, and_true, ← UInt8.toNat_inj, UInt64.toNat_toUInt8,
    UInt64.toNat_shiftRight, Nat.shiftRight_eq_div_pow, UInt64.reduceToNat, Nat.reduceMod,
    Nat.reducePow] at h
  have hm := m.toNat_lt
  have hn := n.toNat_lt
  rw [← UInt64.toNat_inj]
  omega

/-- The bytes of a number, most significant first. -/
def numeralBytes (length value : Nat) : Bytes :=
  (List.range length).map fun i => UInt8.ofNat (value / 256 ^ (length - 1 - i))

/-- The same bytes as an array. -/
def numeralVector (length value : Nat) : Vector UInt8 length :=
  Vector.ofFn fun i => UInt8.ofNat (value / 256 ^ (length - 1 - i.val))

/-- The two hexadecimal digits of every byte. -/
def hexEncode (bytes : Bytes) : List Char :=
  bytes.flatMap fun b => [Nat.digitChar (b.toNat / 16), Nat.digitChar (b.toNat % 16)]

/-- Different digits have different characters. -/
theorem digitChar_injOn :
    ∀ m < 16, ∀ n < 16, Nat.digitChar m = Nat.digitChar n → m = n := by decide

/-- The digits tell the bytes. -/
theorem hexEncode_injective : Function.Injective hexEncode := by
  intro bs
  induction bs with
  | nil =>
    intro cs h
    cases cs with
    | nil => rfl
    | cons c cs => exact absurd h (by simp [hexEncode])
  | cons b bs ih =>
    intro cs h
    cases cs with
    | nil => exact absurd h (by simp [hexEncode])
    | cons c cs =>
      simp only [hexEncode, List.flatMap_cons, List.cons_append, List.nil_append,
        List.cons.injEq] at h
      obtain ⟨hhigh, hlow, hrest⟩ := h
      have hb := b.toNat_lt
      have hc := c.toNat_lt
      have hhigh := digitChar_injOn _ (by omega) _ (by omega) hhigh
      have hlow := digitChar_injOn _ (by omega) _ (by omega) hlow
      rw [ih hrest, UInt8.toNat_inj.mp (by omega : b.toNat = c.toNat)]

/-- The 32-bit word that starts a byte string, read big-endian. -/
def ofBe32 : Bytes → Option UInt32
  | a :: b :: c :: d :: _ =>
      some (a.toUInt32 <<< 24 ||| b.toUInt32 <<< 16 ||| c.toUInt32 <<< 8 ||| d.toUInt32)
  | _ => none

end Bqti.Core
