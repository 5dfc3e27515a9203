import Bqti.Core.Bits
import Bqti.Dht.Routing.RouteTable

/-!
# Splitting a bucket

A bucket is split by the bit of the identifiers that its depth names. Each half is filled node by
node, and takes no more than its size. The source gives the halves the next depth as their size and
the size of the bucket as their depth, so that what a half keeps depends on the depth.
-/

namespace Bqti.Dht.Routing

open Bqti.Core

/-- A bit of the identifier as a number of 256 bits, the highest one first. -/
def Key.bit (self : Key) (i : Nat) : Bool := self.value.testBit (255 - i)

/-- Elements go to one accumulator or the other, as if they had been separated before. -/
theorem foldl_separate {α β : Type*} (p : α → Bool) (f : β → α → β) (l : List α) (no yes : β) :
    l.foldl (fun acc a => if p a then (acc.1, f acc.2 a) else (f acc.1 a, acc.2)) (no, yes) =
      ((l.filter fun a => !p a).foldl f no, (l.filter p).foldl f yes) := by
  induction l generalizing no yes with
  | nil => rfl
  | cons a l ih =>
    rw [List.foldl_cons]
    cases hp : p a with
    | false => simp [hp, ih]
    | true => simp [hp, ih]

namespace KBucket

/-- The bit that a bucket is split by is that bit of the identifier. -/
theorem getBit_eq (key : Key) {i : Nat} (hi : i < 256) : getBit key i = key.bit i := by
  have hlength : key.id.toList.length = 32 := Vector.length_toList
  have hnumeral := @testBit_numeral key.id.toList i (by omega)
  rw [hlength] at hnumeral
  rw [Key.bit, Key.value, hnumeral, getBit, bitAt, List.getD_eq_getElem?_getD]
  cases key.id.toList[i / 8]? with
  | none => simp
  | some byte =>
    dsimp only
    rw [Option.getD_some, Nat.testBit_eq_decide_div_mod_eq, Nat.and_one_is_mod,
      Nat.shiftRight_eq_div_pow]
    rfl

/-- New nodes are kept as long as there is room. -/
theorem foldl_insert {nodes : List Node} {b : KBucket} (hsize : b.nodes.length ≤ b.bucketSize)
    (hnodup : ((b.nodes ++ nodes).map (·.id)).Nodup) :
    nodes.foldl insert b = { b with nodes := (b.nodes ++ nodes).take b.bucketSize } := by
  induction nodes generalizing b with
  | nil => rw [List.foldl_nil, List.append_nil, List.take_of_length_le hsize]
  | cons node nodes ih =>
    have hnew : b.contains node.id = false := by
      rw [Bool.eq_false_iff]
      intro hcontains
      obtain ⟨n, hn, hid⟩ := contains_eq_true.mp hcontains
      rw [List.map_append, List.nodup_append] at hnodup
      exact hnodup.2.2 _ (List.mem_map_of_mem hn) _ (List.mem_map_of_mem List.mem_cons_self) hid
    rw [List.foldl_cons]
    by_cases hroom : b.nodes.length < b.bucketSize
    · have happend : b.nodes ++ [node] ++ nodes = b.nodes ++ node :: nodes := by simp
      rw [insert_of_room hnew hroom, ih]
      · rw [happend]
      · rw [List.length_append, List.length_singleton]
        exact hroom
      · rw [happend]
        exact hnodup
    · have hkeep : b.insert node = b := by
        rw [insert, hnew, if_neg Bool.false_ne_true, if_pos (Nat.not_lt.mp hroom)]
      have hfull : b.nodes.length = b.bucketSize := Nat.le_antisymm hsize (Nat.not_lt.mp hroom)
      have hrest : ((b.nodes ++ nodes).map (·.id)).Nodup :=
        (((List.sublist_cons_self node nodes).append_left _).map _).nodup hnodup
      rw [hkeep, ih hsize hrest, ← hfull, List.take_left, List.take_left]

/-- The nodes of the left side, or of the right one. -/
def side (b : KBucket) (right : Bool) : List Node :=
  b.nodes.filter fun n => n.id.bit b.depth == right

/-- The nodes whose bit is not set are on the first side. -/
theorem filter_not_bit (b : KBucket) :
    (b.nodes.filter fun n => !n.id.bit b.depth) = b.side false :=
  List.filter_congr fun _ _ => by rw [beq_false]

/-- The nodes whose bit is set are on the second side. -/
theorem filter_bit (b : KBucket) : (b.nodes.filter fun n => n.id.bit b.depth) = b.side true :=
  List.filter_congr fun _ _ => by rw [beq_true]

/-- Each half has as many nodes of its side as one more than the depth, the first ones. -/
theorem split_eq {b : KBucket} (hdepth : b.depth < 256) (hnodup : (b.nodes.map (·.id)).Nodup) :
    b.split = (⟨(b.side false).take (b.depth + 1), b.depth + 1, b.bucketSize⟩,
      ⟨(b.side true).take (b.depth + 1), b.depth + 1, b.bucketSize⟩) := by
  have hbit : (fun n : Node => getBit n.id b.depth) = fun n => n.id.bit b.depth := by
    funext n
    exact getBit_eq n.id hdepth
  have hfill : ∀ right, (b.side right).foldl insert (new (b.depth + 1) b.bucketSize) =
      ⟨(b.side right).take (b.depth + 1), b.depth + 1, b.bucketSize⟩ := by
    intro right
    refine foldl_insert (Nat.zero_le _) ?_
    exact (List.filter_sublist.map _).nodup hnodup
  rw [split, foldl_separate fun n : Node => getBit n.id b.depth, hbit, filter_bit, hfill]
  simp only [getBit_eq _ hdepth]
  rw [filter_not_bit, hfill]

/-- The halves have the size of the bucket and the next depth, and each node is in the half of its
bit, in the order of the bucket. -/
structure SplitsWell (b : KBucket) : Prop where
  bucketSize : b.split.1.bucketSize = b.bucketSize ∧ b.split.2.bucketSize = b.bucketSize
  depth : b.split.1.depth = b.depth + 1 ∧ b.split.2.depth = b.depth + 1
  left : b.split.1.nodes = b.nodes.filter fun n => !n.id.bit b.depth
  right : b.split.2.nodes = b.nodes.filter fun n => n.id.bit b.depth

/-- A bucket without a key twice is split well exactly if its size is one more than its depth and
neither side is larger than that. -/
theorem splitsWell_iff (b : KBucket) (hdepth : b.depth < 256)
    (hnodup : (b.nodes.map (·.id)).Nodup) :
    b.SplitsWell ↔ b.bucketSize = b.depth + 1 ∧ ∀ right, (b.side right).length ≤ b.bucketSize := by
  have hsplit := split_eq hdepth hnodup
  constructor
  · rintro ⟨⟨hsize, -⟩, -, hleft, hright⟩
    rw [hsplit] at hsize
    rw [hsplit, filter_not_bit] at hleft
    rw [hsplit, filter_bit] at hright
    have hsize : b.depth + 1 = b.bucketSize := hsize
    refine ⟨hsize.symm, fun right => ?_⟩
    have htake : (b.side right).take (b.depth + 1) = b.side right := by
      cases right with
      | false => exact hleft
      | true => exact hright
    have hlength := congrArg List.length htake
    rw [List.length_take, hsize] at hlength
    omega
  · rintro ⟨hsize, hlength⟩
    rw [hsize] at hlength
    refine ⟨?_, ?_, ?_, ?_⟩
    · rw [hsplit, hsize]
      exact ⟨rfl, rfl⟩
    · rw [hsplit, hsize]
      exact ⟨rfl, rfl⟩
    · rw [hsplit, filter_not_bit]
      exact List.take_of_length_le (hlength false)
    · rw [hsplit, filter_bit]
      exact List.take_of_length_le (hlength true)

end KBucket

/-- A node with an identifier of equal bytes. -/
def uniformNode (byte : UInt8) : Node := ⟨⟨Vector.replicate 32 byte, [byte]⟩, localAddr 6882⟩

/-- A bucket with room for twenty nodes that has two. -/
def twoNodes (depth : Nat) (first second : UInt8) : KBucket :=
  ((KBucket.new kbucketMax depth).insert (uniformNode first)).insert (uniformNode second)

/-- At depth nineteen the halves are right. -/
theorem splitsWell_depth_nineteen : (twoNodes 19 0x00 0x10).SplitsWell :=
  (KBucket.splitsWell_iff (twoNodes 19 0x00 0x10) (by decide) (by decide)).mpr
    ⟨rfl, fun right => by cases right <;> decide⟩

/-- In the first bucket the second node of a side is lost. -/
theorem split_loses_node :
    (twoNodes 0 0x80 0xC0).nodes = [uniformNode 0x80, uniformNode 0xC0] ∧
    (twoNodes 0 0x80 0xC0).split = (⟨[], 1, 20⟩, ⟨[uniformNode 0x80], 1, 20⟩) ∧
    ¬ (twoNodes 0 0x80 0xC0).SplitsWell := by
  have hsplit : (twoNodes 0 0x80 0xC0).split = (⟨[], 1, 20⟩, ⟨[uniformNode 0x80], 1, 20⟩) := by
    decide +kernel
  refine ⟨by decide +kernel, hsplit, fun h => ?_⟩
  have hsize := h.bucketSize.1
  rw [hsplit] at hsize
  exact absurd hsize (by decide)

end Bqti.Dht.Routing
