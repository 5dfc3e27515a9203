import Mathlib.Tactic.Common
import Bqti.Core.Word

/-!
# Reading values from a byte stream

A reader takes a value from the front of a stream or fails. Two laws make it the inverse of a
writer: it reads back what was written, whatever follows, and what it takes is what would be
written. Both carry over to reading value after value until the reader fails.
-/

namespace Bqti.Core

/-! ## Words and blocks -/

@[simp] theorem length_be32 (n : UInt32) : (be32 n).length = 4 := rfl

/-- A word is read back, whatever follows it. -/
theorem ofBe32_be32_append (n : UInt32) (rest : Bytes) : ofBe32 (be32 n ++ rest) = some n := by
  simp only [be32, ofBe32, List.cons_append, List.nil_append, Option.some.injEq]
  apply UInt32.toBitVec_inj.mp
  apply BitVec.eq_of_getLsbD_eq
  intro i hi
  -- every bit lies in one of the four bytes
  simp only [UInt32.toBitVec_or, UInt32.toBitVec_shiftLeft, UInt32.toBitVec_shiftRight,
    UInt32.toBitVec_toUInt8, UInt8.toBitVec_toUInt32, UInt32.toBitVec_ofNat,
    BitVec.ofNat_eq_ofNat, BitVec.shiftLeft_eq', BitVec.ushiftRight_eq', BitVec.toNat_ofNat,
    BitVec.reduceMod, Nat.reducePow, Nat.reduceMod, BitVec.getLsbD_or, BitVec.getLsbD_shiftLeft,
    BitVec.getLsbD_ushiftRight, BitVec.getLsbD_setWidth]
  grind

/-- The bytes that a word was read from are its bytes. -/
theorem be32_of_ofBe32 {a b c d : UInt8} {rest : Bytes} {n : UInt32}
    (h : ofBe32 (a :: b :: c :: d :: rest) = some n) : be32 n = [a, b, c, d] := by
  obtain rfl := Option.some.inj h
  simp only [be32, List.cons.injEq, and_true]
  refine ⟨?_, ?_, ?_, ?_⟩
  all_goals
    apply UInt8.toBitVec_inj.mp
    apply BitVec.eq_of_getLsbD_eq
    intro i hi
    simp only [UInt32.toBitVec_or, UInt32.toBitVec_shiftLeft, UInt32.toBitVec_shiftRight,
      UInt32.toBitVec_toUInt8, UInt8.toBitVec_toUInt32, UInt32.toBitVec_ofNat,
      BitVec.ofNat_eq_ofNat, BitVec.shiftLeft_eq', BitVec.ushiftRight_eq', BitVec.toNat_ofNat,
      BitVec.reduceMod, Nat.reducePow, Nat.reduceMod, BitVec.getLsbD_or, BitVec.getLsbD_shiftLeft,
      BitVec.getLsbD_ushiftRight, BitVec.getLsbD_setWidth]
    grind

/-- Four bytes are a word. -/
theorem exists_ofBe32 {header : Bytes} (h : header.length = 4) :
    ∃ n, ofBe32 header = some n ∧ be32 n = header := by
  match header, h with
  | [a, b, c, d], _ => exact ⟨_, rfl, @be32_of_ofBe32 a b c d [] _ rfl⟩

/-- Read exactly so many bytes; the failure tells how many there were. -/
def readExact (n : Nat) (stream : Bytes) : Except Nat (Bytes × Bytes) :=
  if n ≤ stream.length then .ok (stream.take n, stream.drop n) else .error stream.length

/-- A block is read back, whatever follows it. -/
theorem readExact_append {n : Nat} {block : Bytes} (h : block.length = n) (rest : Bytes) :
    readExact n (block ++ rest) = .ok (block, rest) := by
  subst h
  have hle : block.length ≤ (block ++ rest).length := by simp
  rw [readExact, if_pos hle, List.take_left, List.drop_left]

/-- A stream that is too short is an error with its length. -/
theorem readExact_of_lt {n : Nat} {stream : Bytes} (h : stream.length < n) :
    readExact n stream = .error stream.length := if_neg (Nat.not_le.mpr h)

/-! ## Value after value -/

variable {α ε : Type*} {read : Bytes → Except ε (α × Bytes)} {write : α → Bytes}

/-- Read values until the reader fails, or at most so many: the values, the failure if there was
one, and what was not taken. -/
def readAll (read : Bytes → Except ε (α × Bytes)) : Nat → Bytes → List α × Option ε × Bytes
  | 0, stream => ([], none, stream)
  | n + 1, stream =>
      match read stream with
      | .error e => ([], some e, stream)
      | .ok (value, rest) =>
          let out := readAll read n rest
          (value :: out.1, out.2)

/-- Values that are read back one by one are read back together. -/
theorem readAll_flatMap {values : List α}
    (hread : ∀ v ∈ values, ∀ rest, read (write v ++ rest) = .ok (v, rest)) {e : ε}
    (hend : read [] = .error e) {n : Nat} (hn : values.length < n) :
    readAll read n (values.flatMap write) = (values, some e, []) := by
  induction values generalizing n with
  | nil =>
    obtain ⟨n, rfl⟩ := Nat.exists_eq_add_of_lt hn
    simp only [List.flatMap_nil, readAll, hend]
  | cons v values ih =>
    cases n with
    | zero => exact absurd hn (Nat.not_lt_zero _)
    | succ n =>
      have hrest := ih (fun w hw => hread w (List.mem_cons_of_mem v hw)) (Nat.lt_of_succ_lt_succ hn)
      rw [List.flatMap_cons, readAll, hread v List.mem_cons_self]
      simp only [hrest]

/-- What is read all together are the written values, followed by what was not taken. -/
theorem append_of_readAll
    (hwrite : ∀ stream v rest, read stream = .ok (v, rest) → stream = write v ++ rest) (n : Nat)
    (stream : Bytes) :
    stream = (readAll read n stream).1.flatMap write ++ (readAll read n stream).2.2 := by
  induction n generalizing stream with
  | zero => rfl
  | succ n ih =>
    rw [readAll]
    split
    · rfl
    · rename_i v rest hread
      rw [List.flatMap_cons, List.append_assoc, ← ih rest]
      exact hwrite stream v rest hread

/-- A reader that takes something each time comes to an end: it fails on what it leaves. -/
theorem readAll_fails
    (hshrink : ∀ stream v rest, read stream = .ok (v, rest) → rest.length < stream.length) {n : Nat}
    {stream : Bytes} (hn : stream.length < n) :
    ∃ e, (readAll read n stream).2.1 = some e ∧ read (readAll read n stream).2.2 = .error e := by
  induction n generalizing stream with
  | zero => exact absurd hn (Nat.not_lt_zero _)
  | succ n ih =>
    rw [readAll]
    split
    · rename_i e hread
      exact ⟨e, rfl, hread⟩
    · rename_i v rest hread
      have hlt := hshrink stream v rest hread
      exact ih (by omega)

end Bqti.Core
