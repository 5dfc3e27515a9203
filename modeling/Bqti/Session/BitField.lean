import Mathlib.Data.Nat.Bitwise
import Bqti.Core.Word

/-!
# Piece bitfields

Bit `i` of a bitfield is bit `7 - i % 8` of byte `i / 8`. A bitfield built from the
wire or from a resume file keeps whatever bytes it was given, so reading a bit whose
byte is missing panics in the source; here such a read is `none`.
-/

namespace Bqti.Session

open Bqti.Core

/-- The bytes and the number of pieces, which need not agree. -/
structure BitField where
  bytes : Bytes
  pieceCount : Nat
  deriving DecidableEq, Repr

namespace BitField

/-- The mask of a piece inside its byte. -/
def mask (index : Nat) : UInt8 := 1 <<< UInt8.ofNat (7 - index % 8)

/-- All pieces missing. -/
def empty (pieceCount : Nat) : BitField :=
  ⟨List.replicate ((pieceCount + 7) / 8) 0, pieceCount⟩

/-- Received bytes are taken as they are. -/
def fromWire (bytes : Bytes) (pieceCount : Nat) : BitField := ⟨bytes, pieceCount⟩

/-- Whether a piece is present; `none` where the source indexes outside the bytes. -/
def haveBit (self : BitField) (index : Nat) : Option Bool :=
  if index ≥ self.pieceCount then some false
  else (self.bytes[index / 8]?).map fun byte => byte &&& mask index != 0

/-- Mark a piece; `none` where the source indexes outside the bytes. -/
def set (self : BitField) (index : Nat) : Option BitField :=
  if index ≥ self.pieceCount then some self
  else (self.bytes[index / 8]?).map fun byte =>
    { self with bytes := self.bytes.set (index / 8) (byte ||| mask index) }

/-- A change to the byte of a piece; `none` where the source indexes outside the bytes. -/
def changeByte (self : BitField) (index : Nat) (change : UInt8 → UInt8) : Option BitField :=
  if index ≥ self.pieceCount then some self
  else (self.bytes[index / 8]?).map fun byte =>
    { self with bytes := self.bytes.set (index / 8) (change byte) }

/-- Setting a bit changes one byte. -/
theorem set_eq_changeByte (self : BitField) (index : Nat) :
    self.set index = self.changeByte index fun byte => byte ||| mask index := rfl

/-- Clear a piece. -/
def unset (self : BitField) (index : Nat) : Option BitField :=
  self.changeByte index fun byte => byte &&& ~~~ mask index

/-- The number of present pieces below a bound. -/
def countBelow (self : BitField) : Nat → Option Nat
  | 0 => some 0
  | n + 1 => do
      let k ← self.countBelow n
      let present ← self.haveBit n
      return if present then k + 1 else k

/-- The number of present pieces. -/
def count (self : BitField) : Option Nat := self.countBelow self.pieceCount

/-- The missing pieces in ascending order. -/
def missingPieces (self : BitField) : Option (List Nat) :=
  (List.range self.pieceCount).filterM fun i => (self.haveBit i).map fun present => !present

/-- The present pieces in ascending order. -/
def availablePieces (self : BitField) : Option (List Nat) :=
  (List.range self.pieceCount).filterM self.haveBit

/-- The bytes that are sent. -/
def asBytes (self : BitField) : Bytes := self.bytes

/-- Whether no piece is missing; looking stops at the first one that is. -/
def isComplete (self : BitField) : Option Bool :=
  (List.range self.pieceCount).allM self.haveBit

/-- The pieces that this bitfield has and the other has not. Missing bytes count as zero. -/
def difference (self other : BitField) : List Nat :=
  (List.range (max self.bytes.length other.bytes.length)).flatMap fun byteIdx =>
    (List.range 8).filterMap fun bitPos =>
      if byteIdx * 8 + bitPos ≥ self.pieceCount then none
      else if self.bytes.getD byteIdx 0 &&& ~~~ other.bytes.getD byteIdx 0 &&& mask bitPos != 0 then
        some (byteIdx * 8 + bitPos)
      else none

/-! ## Bits of one byte -/

/-- The mask of a bit is a power of two. -/
theorem mask_toNat (index : Nat) : (mask index).toNat = 2 ^ (7 - index % 8) := by
  have hall : ∀ r, r < 8 → ((1 : UInt8) <<< UInt8.ofNat (7 - r)).toNat = 2 ^ (7 - r) := by decide
  exact hall (index % 8) (Nat.mod_lt _ (by decide))

/-- Testing a byte with the mask of a piece reads that bit of the byte. -/
theorem and_mask_ne_zero (byte : UInt8) (index : Nat) :
    (byte &&& mask index != 0) = byte.toNat.testBit (7 - index % 8) := by
  have hn : (byte &&& mask index).toNat =
      (byte.toNat.testBit (7 - index % 8)).toNat * 2 ^ (7 - index % 8) := by
    rw [UInt8.toNat_and, mask_toNat, Nat.and_two_pow]
  cases hb : byte.toNat.testBit (7 - index % 8) with
  | false =>
    have hz : byte &&& mask index = 0 := by
      rw [← UInt8.toNat_inj, hn, hb]
      simp
    simp [hz]
  | true =>
    have hnz : byte &&& mask index ≠ 0 := by
      intro hz
      rw [hz, hb] at hn
      have hpos := Nat.two_pow_pos (7 - index % 8)
      simp at hn
      omega
    simp [hnz]

/-- Setting the bit of a piece changes exactly that bit of its byte. -/
theorem testBit_or_mask (byte : UInt8) (i j : Nat) (h : i / 8 = j / 8) :
    (byte ||| mask i).toNat.testBit (7 - j % 8) =
      if i = j then true else byte.toNat.testBit (7 - j % 8) := by
  have hbit : decide (7 - i % 8 = 7 - j % 8) = decide (i = j) := decide_eq_decide.mpr (by omega)
  rw [UInt8.toNat_or, mask_toNat, Nat.testBit_or, Nat.testBit_two_pow, hbit]
  by_cases hij : i = j
  · simp [hij]
  · simp [hij]

/-- A byte without the bits of another one. -/
theorem testBit_and_not (mine theirs : UInt8) {k : Nat} (hk : k < 8) :
    (mine &&& ~~~ theirs).toNat.testBit k = (mine.toNat.testBit k && !theirs.toNat.testBit k) := by
  have hlt := theirs.toNat_lt
  have hnot : (~~~ theirs).toNat = 2 ^ 8 - (theirs.toNat + 1) := by
    rw [UInt8.toNat_not, UInt8.size]
    omega
  rw [UInt8.toNat_and, Nat.testBit_and, hnot, Nat.testBit_two_pow_sub_succ hlt, decide_eq_true hk,
    Bool.true_and]

/-- Clearing the bit of a piece changes exactly that bit of its byte. -/
theorem testBit_and_not_mask (byte : UInt8) (i j : Nat) (h : i / 8 = j / 8) :
    (byte &&& ~~~ mask i).toNat.testBit (7 - j % 8) =
      if i = j then false else byte.toNat.testBit (7 - j % 8) := by
  have hbit : decide (7 - i % 8 = 7 - j % 8) = decide (i = j) := decide_eq_decide.mpr (by omega)
  rw [testBit_and_not _ _ (by omega), mask_toNat, Nat.testBit_two_pow, hbit]
  by_cases hij : i = j
  · simp [hij]
  · simp [hij]

/-! ## Reading after setting -/

/-- A bit is present exactly when its index is in range and its byte says so. -/
theorem haveBit_eq_some_true {self : BitField} {index : Nat} :
    self.haveBit index = some true ↔
      index < self.pieceCount ∧
        ∃ byte, self.bytes[index / 8]? = some byte ∧
          byte.toNat.testBit (7 - index % 8) = true := by
  unfold haveBit
  split
  · simp
    omega
  · simp only [Option.map_eq_some_iff, and_mask_ne_zero]
    constructor
    · intro h
      exact ⟨by omega, h⟩
    · exact fun h => h.2

/-- A change to one byte leaves both sizes as they are. -/
theorem sizes_of_changeByte {self out : BitField} {index : Nat} {change : UInt8 → UInt8}
    (h : self.changeByte index change = some out) :
    out.pieceCount = self.pieceCount ∧ out.bytes.length = self.bytes.length := by
  rw [changeByte] at h
  split at h
  · rw [← Option.some.inj h]
    exact ⟨rfl, rfl⟩
  · obtain ⟨byte, -, rfl⟩ := Option.map_eq_some_iff.mp h
    exact ⟨rfl, List.length_set⟩

/-- A change that gives one bit of its byte a value and keeps the others makes that piece present
or missing, if it is counted, and no other. -/
theorem haveBit_changeByte {self out : BitField} {index : Nat} {change : UInt8 → UInt8}
    {present : Bool} (h : self.changeByte index change = some out)
    (hchange : ∀ byte j, index / 8 = j / 8 → (change byte).toNat.testBit (7 - j % 8) =
      if index = j then present else byte.toNat.testBit (7 - j % 8)) (j : Nat) :
    out.haveBit j = if j = index ∧ j < self.pieceCount then some present else self.haveBit j := by
  rw [changeByte] at h
  split at h
  · rename_i hge
    obtain rfl := Option.some.inj h
    rw [if_neg]
    rintro ⟨rfl, hlt⟩
    omega
  · obtain ⟨byte, hbyte, rfl⟩ := Option.map_eq_some_iff.mp h
    have hlen : index / 8 < self.bytes.length := (List.getElem?_eq_some_iff.mp hbyte).1
    rw [haveBit, haveBit]
    by_cases hj : j < self.pieceCount
    · rw [if_neg (Nat.not_le.mpr hj), if_neg (Nat.not_le.mpr hj)]
      by_cases hb : index / 8 = j / 8
      · rw [← hb, List.getElem?_set_self hlen, hbyte, Option.map_some, Option.map_some,
          and_mask_ne_zero, and_mask_ne_zero, hchange byte j hb]
        by_cases hindex : index = j
        · rw [if_pos hindex, if_pos ⟨hindex.symm, hj⟩]
        · rw [if_neg hindex, if_neg fun heq => hindex heq.1.symm]
      · rw [List.getElem?_set_ne hb, if_neg]
        rintro ⟨rfl, -⟩
        exact hb rfl
    · rw [if_pos (Nat.not_lt.mp hj), if_pos (Nat.not_lt.mp hj), if_neg fun heq => hj heq.2]

@[simp] theorem set_pieceCount {self out : BitField} {index : Nat}
    (h : self.set index = some out) : out.pieceCount = self.pieceCount :=
  (sizes_of_changeByte h).1

/-- Setting a piece makes that piece present and no other. -/
theorem haveBit_set {self out : BitField} {index : Nat} (h : self.set index = some out)
    (j : Nat) :
    out.haveBit j = some true ↔
      (j = index ∧ index < self.pieceCount) ∨ self.haveBit j = some true := by
  rw [haveBit_changeByte h fun byte j hb => testBit_or_mask byte index j hb]
  split
  · rename_i hj
    exact iff_of_true rfl (.inl ⟨hj.1, hj.1 ▸ hj.2⟩)
  · rename_i hj
    rw [or_iff_right]
    rintro ⟨rfl, hlt⟩
    exact hj ⟨rfl, hlt⟩

/-- Clearing a bit keeps the number of pieces. -/
theorem unset_pieceCount {self out : BitField} {index : Nat}
    (h : self.unset index = some out) : out.pieceCount = self.pieceCount :=
  (sizes_of_changeByte h).1

/-- Clearing a piece makes that piece missing and no other. -/
theorem haveBit_unset {self out : BitField} {index : Nat} (h : self.unset index = some out)
    (j : Nat) : out.haveBit j = some true ↔ j ≠ index ∧ self.haveBit j = some true := by
  rw [haveBit_changeByte h fun byte j hb => testBit_and_not_mask byte index j hb]
  split
  · rename_i hj
    exact iff_of_false (by simp) fun hne => hne.1 hj.1
  · rename_i hj
    refine ⟨fun hhave => ⟨fun heq => ?_, hhave⟩, And.right⟩
    exact hj ⟨heq, (haveBit_eq_some_true.mp hhave).1⟩

/-- A fresh bitfield has no piece. -/
theorem haveBit_empty (n j : Nat) : (empty n).haveBit j ≠ some true := by
  rw [Ne, haveBit_eq_some_true]
  rintro ⟨_, byte, hbyte, hbit⟩
  have hz : byte = 0 := List.eq_of_mem_replicate (List.mem_of_getElem? hbyte)
  rw [hz] at hbit
  simp at hbit

/-! ## Bitfields of the right size -/

/-- The bytes are exactly as many as the pieces need. -/
def WellSized (self : BitField) : Prop := self.bytes.length = (self.pieceCount + 7) / 8

/-- An empty bit field has the right size. -/
theorem wellSized_empty (n : Nat) : (empty n).WellSized := List.length_replicate

/-- No index makes a bitfield of the right size panic, and its size stays right. -/
theorem WellSized.exists_changeByte {self : BitField} (h : self.WellSized) (index : Nat)
    (change : UInt8 → UInt8) : ∃ out, self.changeByte index change = some out ∧ out.WellSized := by
  unfold WellSized at h
  unfold changeByte
  split
  · exact ⟨self, rfl, h⟩
  · have hlt : index / 8 < self.bytes.length := by omega
    rw [List.getElem?_eq_getElem hlt]
    refine ⟨_, rfl, ?_⟩
    simpa [WellSized] using h

/-- In a bit field of the right size every bit can be set. -/
theorem WellSized.exists_set {self : BitField} (h : self.WellSized) (index : Nat) :
    ∃ out, self.set index = some out ∧ out.WellSized :=
  h.exists_changeByte index _

/-- In a bit field of the right size every bit can be cleared. -/
theorem WellSized.exists_unset {self : BitField} (h : self.WellSized) (index : Nat) :
    ∃ out, self.unset index = some out ∧ out.WellSized :=
  h.exists_changeByte index _

/-! ## Counting -/

/-- The count is the number of present indices. -/
theorem countBelow_eq {self : BitField} {n k : Nat} (h : self.countBelow n = some k) :
    k = ((List.range n).filter fun i => self.haveBit i = some true).length := by
  induction n generalizing k with
  | zero =>
    have hk : (0 : Nat) = k := Option.some.inj h
    simp [← hk]
  | succ n ih =>
    simp only [countBelow, Option.bind_eq_bind, Option.bind_eq_some_iff, Option.pure_def] at h
    obtain ⟨m, hm, present, hp, hk⟩ := h
    rw [List.range_succ, List.filter_append, List.length_append, ← ih hm]
    cases present <;> simp_all

/-- When the count is the number of pieces, every piece is present. -/
theorem haveBit_of_count {self : BitField} (h : self.count = some self.pieceCount) {i : Nat}
    (hi : i < self.pieceCount) : self.haveBit i = some true := by
  have hlen := countBelow_eq h
  have hall := List.length_filter_eq_length_iff.mp
    (hlen.symm.trans (List.length_range (n := self.pieceCount)).symm)
  simpa using hall i (List.mem_range.mpr hi)

end BitField

end Bqti.Session
