import Mathlib.Data.Finset.Sort
import Bqti.Core.Run
import Bqti.Session.BitField

/-!
# Bitfields as sets of pieces

A bitfield that starts empty is a set of pieces below its count: setting and clearing a piece puts
it in and takes it out, sending and receiving changes nothing, and what is read off the bytes is
what the set says. The spare bits of the last byte stay out of it.
-/

namespace Bqti.Session

open Bqti.Core

/-! ## Reads that all succeed -/

section Reads

variable {α : Type} {f : α → Option Bool} {p : α → Bool}

/-- Filtering by a test that succeeds is filtering, behind what was kept. -/
theorem filterAuxM_eq_some {l : List α} (h : ∀ a ∈ l, f a = some (p a)) (acc : List α) :
    l.filterAuxM f acc = some ((l.filter p).reverse ++ acc) := by
  induction l generalizing acc with
  | nil => rfl
  | cons a l ih =>
    obtain ⟨ha, hl⟩ := List.forall_mem_cons.mp h
    rw [List.filterAuxM, ha, Option.bind_eq_bind, Option.bind_some, ih hl]
    cases hp : p a with
    | false => simp [hp]
    | true => simp [hp]

/-- Filtering by a test that succeeds is filtering. -/
theorem filterM_eq_some {l : List α} (h : ∀ a ∈ l, f a = some (p a)) :
    l.filterM f = some (l.filter p) := by
  rw [List.filterM, filterAuxM_eq_some h, Option.bind_eq_bind, Option.bind_some]
  simp

/-- Testing all members by a test that succeeds is testing them. -/
theorem allM_eq_some {l : List α} (h : ∀ a ∈ l, f a = some (p a)) :
    l.allM f = some (l.all p) := by
  induction l with
  | nil => rfl
  | cons a l ih =>
    obtain ⟨ha, hl⟩ := List.forall_mem_cons.mp h
    rw [List.allM, ha, Option.bind_eq_bind, Option.bind_some, List.all_cons]
    cases p a with
    | false => rfl
    | true => exact ih hl

end Reads

/-- The elements of a set below a bound, in ascending order. -/
theorem filter_range_eq_sort {n : ℕ} {s : Finset ℕ} (hs : ∀ i ∈ s, i < n) :
    (List.range n).filter (fun i => decide (i ∈ s)) = s.sort (· ≤ ·) := by
  have hsorted : ((List.range n).filter fun i => decide (i ∈ s)).Pairwise (· ≤ ·) :=
    (List.pairwise_lt_range.imp Nat.le_of_lt).filter _
  refine List.Perm.eq_of_pairwise (fun _ _ _ _ hab hba => Nat.le_antisymm hab hba) hsorted
    (s.pairwise_sort (· ≤ ·)) ?_
  rw [List.perm_ext_iff_of_nodup (List.nodup_range.filter _) (s.sort_nodup (· ≤ ·))]
  intro i
  rw [List.mem_filter, List.mem_range, decide_eq_true_eq, Finset.mem_sort]
  exact and_iff_right_of_imp (hs i)

namespace BitField

variable {self : BitField} {index : ℕ}

/-! ## Single accesses -/

/-- Outside of the pieces that are counted nothing changes. -/
theorem set_of_le (h : self.pieceCount ≤ index) : self.set index = some self := if_pos h

/-- Clearing a bit behind the last piece changes nothing. -/
theorem unset_of_le (h : self.pieceCount ≤ index) : self.unset index = some self := if_pos h

/-- Every bit of a bitfield of the right size can be read. -/
theorem WellSized.exists_haveBit (h : self.WellSized) (index : ℕ) :
    ∃ present, self.haveBit index = some present := by
  unfold WellSized at h
  rw [haveBit]
  split
  · exact ⟨false, rfl⟩
  · have hlt : index / 8 < self.bytes.length := by omega
    rw [List.getElem?_eq_getElem hlt]
    exact ⟨_, rfl⟩

/-- The bits below a bound are counted as their test says. -/
theorem countBelow_eq_some {p : ℕ → Bool} (h : ∀ i, self.haveBit i = some (p i)) (n : ℕ) :
    self.countBelow n = some ((List.range n).filter p).length := by
  induction n with
  | zero => rfl
  | succ n ih =>
    rw [countBelow, ih, h n, List.range_succ, List.filter_append, List.length_append]
    cases hp : p n with
    | false => simp [hp]
    | true => simp [hp]

end BitField

/-! ## Sets of pieces -/

/-- An operation on a bitfield; `wire` sends it and receives it again. -/
inductive BitOp
  | set (index : ℕ)
  | unset (index : ℕ)
  | wire
  deriving DecidableEq

/-- The bitfield after an operation; `none` is an access outside of the bytes. -/
def BitOp.step (self : BitField) : BitOp → Option BitField
  | .set index => self.set index
  | .unset index => self.unset index
  | .wire => some (.fromWire self.asBytes self.pieceCount)

/-- What an operation does to a set of pieces below a count. -/
def BitOp.onSet (pieceCount : ℕ) (pieces : Finset ℕ) : BitOp → Finset ℕ
  | .set index => if index < pieceCount then insert index pieces else pieces
  | .unset index => pieces.erase index
  | .wire => pieces

/-- The piece was set, and not cleared afterwards. -/
def LastSet (ops : List BitOp) (index : ℕ) : Prop :=
  ∃ before after, ops = before ++ .set index :: after ∧ .unset index ∉ after

/-- A piece was last set by the new operation, or before if the operation does not clear it. -/
theorem lastSet_concat {ops : List BitOp} {op : BitOp} {index : ℕ} :
    LastSet (ops ++ [op]) index ↔ op = .set index ∨ op ≠ .unset index ∧ LastSet ops index := by
  constructor
  · rintro ⟨before, after, hops, hafter⟩
    rcases List.eq_nil_or_concat after with rfl | ⟨rest, last, rfl⟩
    · obtain ⟨-, hlast⟩ := List.append_inj' hops rfl
      exact .inl (List.singleton_inj.mp hlast)
    · rw [List.concat_eq_append] at hops hafter
      rw [← List.cons_append, ← List.append_assoc] at hops
      obtain ⟨hbefore, hlast⟩ := List.append_inj' hops rfl
      obtain rfl := List.singleton_inj.mp hlast
      rw [List.mem_append, List.mem_singleton, not_or] at hafter
      exact .inr ⟨fun heq => hafter.2 heq.symm, before, rest, hbefore, hafter.1⟩
  · rintro (rfl | ⟨hop, before, after, rfl, hafter⟩)
    · exact ⟨ops, [], rfl, List.not_mem_nil⟩
    · refine ⟨before, after ++ [op], by simp, fun hmem => ?_⟩
      rcases List.mem_append.mp hmem with hmem | hmem
      · exact hafter hmem
      · exact hop (List.mem_singleton.mp hmem).symm

/-- The operations leave the pieces that they have set last. -/
theorem mem_foldl_onSet {pieceCount index : ℕ} (ops : List BitOp) :
    index ∈ ops.foldl (BitOp.onSet pieceCount) ∅ ↔ index < pieceCount ∧ LastSet ops index := by
  induction ops using List.reverseRecOn with
  | nil =>
    have hnever : ¬ LastSet [] index := by
      rintro ⟨before, after, hops, -⟩
      simp at hops
    simp [hnever]
  | append_singleton ops op ih =>
    rw [List.foldl_append, List.foldl_cons, List.foldl_nil, lastSet_concat]
    cases op with
    | set other =>
      rw [BitOp.onSet]
      split
      · rename_i hlt
        rw [Finset.mem_insert, ih]
        constructor
        · rintro (rfl | ⟨hindex, hlast⟩)
          · exact ⟨hlt, .inl rfl⟩
          · exact ⟨hindex, .inr ⟨nofun, hlast⟩⟩
        · rintro ⟨hindex, heq | ⟨-, hlast⟩⟩
          · exact .inl (BitOp.set.inj heq).symm
          · exact .inr ⟨hindex, hlast⟩
      · rename_i hge
        rw [ih]
        refine and_congr_right fun hindex => ⟨fun hlast => .inr ⟨nofun, hlast⟩, ?_⟩
        rintro (heq | ⟨-, hlast⟩)
        · exact absurd hindex (BitOp.set.inj heq ▸ hge)
        · exact hlast
    | unset other =>
      rw [BitOp.onSet, Finset.mem_erase, ih]
      constructor
      · rintro ⟨hne, hindex, hlast⟩
        exact ⟨hindex, .inr ⟨fun heq => hne (BitOp.unset.inj heq).symm, hlast⟩⟩
      · rintro ⟨hindex, ⟨⟨⟩⟩ | ⟨hne, hlast⟩⟩
        exact ⟨fun heq => hne (heq ▸ rfl), hindex, hlast⟩
    | wire =>
      rw [BitOp.onSet, ih]
      simp

namespace BitField

/-- The bitfield has the size of its count and the bits of the set. -/
structure Represents (b : BitField) (pieceCount : ℕ) (pieces : Finset ℕ) : Prop where
  pieceCount_eq : b.pieceCount = pieceCount
  wellSized : b.WellSized
  mem_iff : ∀ i, i ∈ pieces ↔ b.haveBit i = some true

/-- An empty bit field represents the empty set. -/
theorem represents_empty (pieceCount : ℕ) : (empty pieceCount).Represents pieceCount ∅ :=
  ⟨rfl, wellSized_empty pieceCount, fun i => by simp [haveBit_empty]⟩

namespace Represents

variable {self : BitField} {pieceCount : ℕ} {pieces : Finset ℕ}

/-- An operation on the bitfield does to its set what it does to sets. -/
theorem step (h : self.Represents pieceCount pieces) (op : BitOp) :
    ∃ out, op.step self = some out ∧ out.Represents pieceCount (op.onSet pieceCount pieces) := by
  cases op with
  | set index =>
    obtain ⟨out, hout, hsize⟩ := h.wellSized.exists_set index
    refine ⟨out, hout, (set_pieceCount hout).trans h.pieceCount_eq, hsize, fun i => ?_⟩
    rw [haveBit_set hout, ← h.mem_iff, h.pieceCount_eq, BitOp.onSet]
    split
    · rename_i hlt
      rw [Finset.mem_insert, and_iff_left hlt]
    · rename_i hge
      rw [or_iff_right fun hi => hge hi.2]
  | unset index =>
    obtain ⟨out, hout, hsize⟩ := h.wellSized.exists_unset index
    refine ⟨out, hout, (unset_pieceCount hout).trans h.pieceCount_eq, hsize, fun i => ?_⟩
    rw [haveBit_unset hout, ← h.mem_iff, BitOp.onSet, Finset.mem_erase]
  | wire => exact ⟨self, rfl, h⟩

/-- Operations on the bit field are operations on the set. -/
theorem run (h : self.Represents pieceCount pieces) (ops : List BitOp) :
    ∃ out, Core.run BitOp.step self ops = some out ∧
      out.Represents pieceCount (ops.foldl (BitOp.onSet pieceCount) pieces) := by
  induction ops generalizing self pieces with
  | nil => exact ⟨self, rfl, h⟩
  | cons op ops ih =>
    obtain ⟨next, hnext, h⟩ := h.step op
    obtain ⟨out, hout, h⟩ := ih h
    exact ⟨out, run_cons_eq_some.mpr ⟨next, hnext, hout⟩, h⟩

/-- A bit is set if its piece is in the set. -/
theorem haveBit_eq (h : self.Represents pieceCount pieces) (i : ℕ) :
    self.haveBit i = some (decide (i ∈ pieces)) := by
  obtain ⟨present, hpresent⟩ := h.wellSized.exists_haveBit i
  have hmem := h.mem_iff i
  rw [hpresent, Option.some.injEq] at hmem
  rw [hpresent, Bool.eq_iff_iff.mpr (hmem.symm.trans decide_eq_true_iff.symm)]

/-- The pieces of the set are pieces of the torrent. -/
theorem lt (h : self.Represents pieceCount pieces) : ∀ i ∈ pieces, i < pieceCount := by
  intro i hi
  rw [← h.pieceCount_eq]
  exact (haveBit_eq_some_true.mp ((h.mem_iff i).mp hi)).1

end Represents

/-- All that can be read off a bitfield is the set. -/
structure IsSet (b : BitField) (pieceCount : ℕ) (pieces : Finset ℕ) : Prop where
  haveBit : ∀ i, b.haveBit i = some (decide (i ∈ pieces))
  outside : ∀ i, pieceCount ≤ i → b.set i = some b ∧ b.unset i = some b
  availablePieces : b.availablePieces = some (pieces.sort (· ≤ ·))
  missingPieces : b.missingPieces = some ((Finset.range pieceCount \ pieces).sort (· ≤ ·))
  count : b.count = some pieces.card
  isComplete : b.isComplete = some (decide (pieces.card = pieceCount))

/-- A bit field that represents a set is this set. -/
theorem Represents.isSet {self : BitField} {pieceCount : ℕ} {pieces : Finset ℕ}
    (h : self.Represents pieceCount pieces) : self.IsSet pieceCount pieces := by
  have hpresent := filter_range_eq_sort h.lt
  have hmissing : (List.range pieceCount).filter (fun i => !decide (i ∈ pieces)) =
      (Finset.range pieceCount \ pieces).sort (· ≤ ·) := by
    rw [← filter_range_eq_sort fun i hi => Finset.mem_range.mp (Finset.mem_sdiff.mp hi).1]
    refine List.filter_congr fun i hi => ?_
    rw [← decide_not, decide_eq_decide, Finset.mem_sdiff, Finset.mem_range,
      and_iff_right (List.mem_range.mp hi)]
  refine ⟨h.haveBit_eq, fun i hi => ⟨set_of_le (h.pieceCount_eq ▸ hi),
    unset_of_le (h.pieceCount_eq ▸ hi)⟩, ?_, ?_, ?_, ?_⟩
  · rw [BitField.availablePieces, filterM_eq_some fun i _ => h.haveBit_eq i, h.pieceCount_eq,
      hpresent]
  · have hread : ∀ i ∈ List.range self.pieceCount,
        ((self.haveBit i).map fun present => !present) = some (!decide (i ∈ pieces)) := by
      intro i _
      rw [h.haveBit_eq, Option.map_some]
    rw [BitField.missingPieces, filterM_eq_some hread, h.pieceCount_eq, hmissing]
  · rw [BitField.count, countBelow_eq_some h.haveBit_eq, h.pieceCount_eq, hpresent,
      Finset.length_sort]
  · have hall : (List.range pieceCount).all (fun i => decide (i ∈ pieces)) = true ↔
        pieces.card = pieceCount := by
      rw [← List.length_filter_eq_length_iff.trans List.all_eq_true.symm, hpresent,
        Finset.length_sort, List.length_range]
    rw [BitField.isComplete, allM_eq_some fun i _ => h.haveBit_eq i, h.pieceCount_eq,
      Bool.eq_iff_iff.mpr (hall.trans decide_eq_true_iff.symm)]

end BitField

/-- A bitfield is the set of the pieces below its count that were set and not cleared afterwards:
whatever the operations on an empty one, none of them and no read leaves the bytes, and every read
says what the set says. -/
theorem operations_are_set (pieceCount : ℕ) (ops : List BitOp) :
    ∃ b pieces, run BitOp.step (.empty pieceCount) ops = some b ∧
      (∀ i, i ∈ pieces ↔ i < pieceCount ∧ LastSet ops i) ∧ b.IsSet pieceCount pieces := by
  obtain ⟨b, hrun, hrep⟩ := (BitField.represents_empty pieceCount).run ops
  exact ⟨b, _, hrun, fun _ => mem_foldl_onSet ops, hrep.isSet⟩

end Bqti.Session
