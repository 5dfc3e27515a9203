import Mathlib.Data.List.Basic
import Mathlib.Data.List.GetD
import Mathlib.Data.Nat.ModEq
import Mathlib.Tactic.Common
import Mathlib.Tactic.Linarith

/-!
# Slices, overwriting and equal pieces of a sequence

Positions of a sequence are read through `getElem?`: overwriting a range changes
exactly the positions of the range, and a sequence is determined by its length and
by the optional element at each position. A sequence is cut into pieces of one
length with a shorter last piece; a stream of full pieces and a short tail is that
cut of its concatenation.
-/

namespace Bqti.Core

variable {α : Type*}

/-! ## Slices and overwriting -/

/-- At most `size` elements from position `offset`. -/
def slice (xs : List α) (offset size : Nat) : List α := (xs.drop offset).take size

@[simp] theorem length_slice (xs : List α) (offset size : Nat) :
    (slice xs offset size).length = min size (xs.length - offset) := by
  simp only [slice, List.length_take, List.length_drop]

/-- A slice holds what was there from its offset on. -/
theorem getElem?_slice (xs : List α) (offset size i : Nat) :
    (slice xs offset size)[i]? = if i < size then xs[offset + i]? else none := by
  simp only [slice, List.getElem?_take, List.getElem?_drop]

/-- Write `buf` over `xs` from position `offset`. A gap behind the end is filled, and an
empty buffer changes nothing, not even the length. -/
def overwrite (fill : α) (xs : List α) (offset : Nat) (buf : List α) : List α :=
  if buf.isEmpty then xs
  else xs.take offset ++ List.replicate (offset - xs.length) fill ++ buf ++
    xs.drop (offset + buf.length)

/-- Bytes that are written may make the list longer. -/
theorem length_overwrite (fill : α) (xs : List α) (offset : Nat) (buf : List α) :
    (overwrite fill xs offset buf).length =
      if buf.isEmpty then xs.length else max xs.length (offset + buf.length) := by
  unfold overwrite
  split
  · rfl
  · simp only [List.length_append, List.length_take, List.length_replicate, List.length_drop]
    omega

/-- Inside the written range every position holds the buffer's element. -/
theorem getElem?_overwrite_inside (fill : α) (xs : List α) {offset i : Nat} {buf : List α}
    (hlo : offset ≤ i) (hhi : i < offset + buf.length) :
    (overwrite fill xs offset buf)[i]? = buf[i - offset]? := by
  have hne : buf.isEmpty = false := by
    cases buf with
    | nil => simp only [List.length_nil] at hhi; omega
    | cons b bs => rfl
  have hfront : (xs.take offset ++ List.replicate (offset - xs.length) fill).length = offset := by
    simp only [List.length_append, List.length_take, List.length_replicate]
    omega
  rw [overwrite, hne]
  simp only [Bool.false_eq_true, ite_false]
  rw [List.append_assoc, List.getElem?_append_right (by omega), hfront,
    List.getElem?_append_left (by omega)]

/-- Outside the written range every existing element stays. -/
theorem getElem?_overwrite_outside (fill : α) {xs : List α} {offset i : Nat} {buf : List α}
    (hi : i < xs.length) (hout : i < offset ∨ offset + buf.length ≤ i) :
    (overwrite fill xs offset buf)[i]? = xs[i]? := by
  unfold overwrite
  split
  · rfl
  · rcases hout with hlt | hge
    · rw [List.append_assoc, List.append_assoc, List.getElem?_append_left (by
        simp only [List.length_take]; omega), List.getElem?_take_of_lt hlt]
    · have hlen : (xs.take offset ++ List.replicate (offset - xs.length) fill ++ buf).length =
          offset + buf.length := by
        simp only [List.length_append, List.length_take, List.length_replicate]
        omega
      rw [List.getElem?_append_right (by omega), hlen, List.getElem?_drop,
        Nat.add_sub_cancel' hge]

/-- What was written is read back. -/
theorem slice_overwrite (fill : α) (xs : List α) (offset : Nat) (buf : List α) :
    slice (overwrite fill xs offset buf) offset buf.length = buf := by
  apply List.ext_getElem?
  intro i
  rw [getElem?_slice]
  split
  · rename_i hi
    rw [getElem?_overwrite_inside fill xs (Nat.le_add_right offset i) (by omega),
      Nat.add_sub_cancel_left]
  · rename_i hi
    exact (List.getElem?_eq_none (by omega)).symm

/-- A slice beside the written range stays. -/
theorem slice_overwrite_of_disjoint (fill : α) {xs : List α} {offset start size : Nat}
    {buf : List α} (hend : start + size ≤ xs.length)
    (hout : start + size ≤ offset ∨ offset + buf.length ≤ start) :
    slice (overwrite fill xs offset buf) start size = slice xs start size := by
  apply List.ext_getElem?
  intro i
  rw [getElem?_slice, getElem?_slice]
  split
  · exact getElem?_overwrite_outside fill (by omega) (by omega)
  · rfl

/-! ## Pieces of one length -/

/-- The number of pieces of length `size` that cover `total` elements. -/
def pieceCount (total size : Nat) : Nat := (total + size - 1) / size

/-- The piece at an index: full length except for a shorter last one. -/
def piece (size : Nat) (xs : List α) (index : Nat) : List α := slice xs (index * size) size

/-- An index is a piece exactly when its first element exists. -/
theorem lt_pieceCount_iff {total size index : Nat} (hs : 0 < size) :
    index < pieceCount total size ↔ index * size < total := by
  unfold pieceCount
  rw [Nat.lt_iff_add_one_le, Nat.le_div_iff_mul_le hs, Nat.add_mul, Nat.one_mul]
  omega

/-- The full pieces only: an incomplete tail is dropped. -/
def chunksExact (size : Nat) (xs : List α) : List (List α) :=
  (List.range (xs.length / size)).map (piece size xs)

/-- The piece at an index is empty only behind the end of the sequence. -/
theorem length_piece (size : Nat) (xs : List α) (index : Nat) :
    (piece size xs index).length = min size (xs.length - index * size) := length_slice _ _ _

/-- Appending behind a full piece does not change it. -/
theorem piece_append_left {size index : Nat} {xs ys : List α}
    (h : (index + 1) * size ≤ xs.length) : piece size (xs ++ ys) index = piece size xs index := by
  apply List.ext_getElem?
  intro j
  rw [piece, piece, getElem?_slice, getElem?_slice]
  split
  · rw [Nat.add_mul, Nat.one_mul] at h
    rw [List.getElem?_append_left (by omega)]
  · rfl

/-- The last piece of a sequence that ends at most one piece behind the index. -/
theorem piece_eq_drop {size index : Nat} {xs : List α}
    (h : xs.length ≤ (index + 1) * size) : piece size xs index = xs.drop (index * size) := by
  rw [piece, slice, List.take_of_length_le]
  rw [Nat.add_mul, Nat.one_mul] at h
  rw [List.length_drop]
  omega

/-- A block in front is the first piece and shifts all others. -/
theorem chunksExact_append {size : Nat} (hs : 0 < size) {block : List α}
    (hb : block.length = size) (rest : List α) :
    chunksExact size (block ++ rest) = block :: chunksExact size rest := by
  have hcount : (block ++ rest).length / size = rest.length / size + 1 := by
    rw [List.length_append, hb, Nat.add_comm, Nat.add_div_right _ hs]
  have hfirst : piece size (block ++ rest) 0 = block := by
    rw [piece_append_left (by omega), piece_eq_drop (by omega), Nat.zero_mul, List.drop_zero]
  have hshift : ∀ i, piece size (block ++ rest) (i + 1) = piece size rest i := by
    intro i
    rw [piece, piece, slice, slice, Nat.add_mul, Nat.one_mul, Nat.add_comm, ← List.drop_drop,
      ← hb, List.drop_left]
  rw [chunksExact, hcount, List.range_succ_eq_map, List.map_cons, hfirst, List.map_map]
  simp only [chunksExact, Function.comp_def, Nat.succ_eq_add_one, hshift]

/-- Cutting the concatenation of blocks of one length gives the blocks back. -/
theorem chunksExact_flatten {size : Nat} (hs : 0 < size) {blocks : List (List α)}
    (h : ∀ b ∈ blocks, b.length = size) : chunksExact size blocks.flatten = blocks := by
  induction blocks with
  | nil => simp [chunksExact]
  | cons b blocks ih =>
    rw [List.flatten_cons, chunksExact_append hs (h b List.mem_cons_self),
      ih fun c hc => h c (List.mem_cons_of_mem _ hc)]

end Bqti.Core
