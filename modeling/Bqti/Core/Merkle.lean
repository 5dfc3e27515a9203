import Mathlib.Algebra.Ring.Parity
import Mathlib.Data.List.GetD
import Mathlib.Data.Nat.Log
import Mathlib.Tactic.Common

/-!
# Hash trees built level by level

A root is found by joining neighbours until one value is left; in a level with an odd number of
values the last one is joined with the padding of that level. If the padding of each level is that
of the level below joined with itself, this is the root of a complete binary tree whose missing
leaves are the first padding. What the root says about the leaves is the same for every choice of
paddings: two roots agree only if the leaves and all paddings in use do, unless two different pairs
that were joined have the same value.
-/

namespace Bqti.Core

variable {α : Type*} (node : α → α → α)

/-- The pairs of neighbours of a level; a last value without a neighbour has the padding. -/
def neighbours (pad : α) : List α → List (α × α)
  | a :: b :: rest => (a, b) :: neighbours pad rest
  | [a] => [(a, pad)]
  | [] => []

/-- The level above. -/
def levelUp (pad : α) (level : List α) : List α :=
  (neighbours pad level).map fun pair => node pair.1 pair.2

/-- A level is about half as long as the one below it. -/
@[simp] theorem length_levelUp (pad : α) (level : List α) :
    (levelUp node pad level).length = (level.length + 1) / 2 := by
  rw [levelUp, List.length_map]
  induction level using neighbours.induct with
  | case1 a b rest ih =>
    rw [neighbours, List.length_cons, ih, List.length_cons, List.length_cons]
    omega
  | case2 a => simp [neighbours]
  | case3 => simp [neighbours]

/-- The root over a list of leaves; `pads j` is the padding of the level `j` above them. -/
def levelRoot (pads : Nat → α) (level : List α) : α :=
  match level with
  | [] => pads 0
  | [root] => root
  | a :: b :: rest => levelRoot (fun j => pads (j + 1)) (levelUp node (pads 0) (a :: b :: rest))
termination_by level.length
decreasing_by
  rw [length_levelUp, List.length_cons, List.length_cons]
  omega

/-- All pairs that are joined on the way to the root. -/
def rootPairs (pads : Nat → α) (level : List α) : List (α × α) :=
  match level with
  | [] => []
  | [_] => []
  | a :: b :: rest =>
      neighbours (pads 0) (a :: b :: rest) ++
        rootPairs (fun j => pads (j + 1)) (levelUp node (pads 0) (a :: b :: rest))
termination_by level.length
decreasing_by
  rw [length_levelUp, List.length_cons, List.length_cons]
  omega

/-- The number of values in the level `j` above a number of leaves. -/
def width : Nat → Nat → Nat
  | n, 0 => n
  | n, j + 1 => width ((n + 1) / 2) j

@[simp] theorem width_one (j : Nat) : width 1 j = 1 := by
  induction j with
  | zero => rfl
  | succ j ih => exact ih

/-- Two choices of paddings agree wherever a tree over a number of leaves is padded. -/
def PadsAgree (pads pads' : Nat → α) (n : Nat) : Prop :=
  ∀ j, 1 < width n j → width n j % 2 = 1 → pads j = pads' j

variable {node}
variable {pads pads' : Nat → α} {pad pad' : α} {level level' : List α} {n : Nat}

/-- A level above something is not empty. -/
theorem levelUp_ne_nil (hne : level ≠ []) :
    levelUp node pad level ≠ [] := by
  rw [← List.length_pos_iff, length_levelUp]
  have hpos := List.length_pos_iff.mpr hne
  omega

/-- Padding agrees if it does on this level, where it is used, and on the levels above. -/
theorem padsAgree_iff : PadsAgree pads pads' n ↔
    (1 < n → n % 2 = 1 → pads 0 = pads' 0) ∧
      PadsAgree (fun j => pads (j + 1)) (fun j => pads' (j + 1)) ((n + 1) / 2) := by
  constructor
  · exact fun h => ⟨h 0, fun j => h (j + 1)⟩
  · rintro ⟨hfirst, hrest⟩ j
    cases j with
    | zero => exact hfirst
    | succ j => exact hrest j

/-- The padding matters only to a level of odd length. -/
theorem neighbours_congr (h : level.length % 2 = 1 → pad = pad') :
    neighbours pad level = neighbours pad' level := by
  induction level using neighbours.induct with
  | case1 a b rest ih =>
    rw [neighbours, neighbours, ih]
    intro hodd
    refine h ?_
    rw [List.length_cons, List.length_cons]
    omega
  | case2 a => rw [h rfl]
  | case3 => rfl

/-- The pairs tell the level, and the padding if it is in use. -/
theorem neighbours_inj (hlength : level.length = level'.length)
    (h : neighbours pad level = neighbours pad' level') :
    level = level' ∧ (level.length % 2 = 1 → pad = pad') := by
  induction level using neighbours.induct generalizing level' with
  | case1 a b rest ih =>
    match level', hlength with
    | a' :: b' :: rest', hlength =>
      rw [neighbours, neighbours, List.cons.injEq, Prod.mk.injEq] at h
      obtain ⟨⟨rfl, rfl⟩, hrest⟩ := h
      obtain ⟨rfl, hpad⟩ := ih (by simpa using hlength) hrest
      refine ⟨rfl, fun hodd => hpad ?_⟩
      rw [List.length_cons, List.length_cons] at hodd
      omega
  | case2 a =>
    match level', hlength with
    | [a'], _ =>
      rw [neighbours, neighbours, List.cons.injEq, Prod.mk.injEq] at h
      obtain ⟨⟨rfl, rfl⟩, -⟩ := h
      exact ⟨rfl, fun _ => rfl⟩
  | case3 =>
    rw [List.length_nil] at hlength
    rw [List.length_eq_zero_iff.mp hlength.symm]
    exact ⟨rfl, fun hodd => absurd hodd (by simp)⟩

/-- A map tells two lists apart if it tells their members apart. -/
theorem eq_of_map_eq_map {β : Type*} {f : α → β} {l l' : List α}
    (hinj : ∀ x ∈ l, ∀ y ∈ l', f x = f y → x = y) (h : l.map f = l'.map f) : l = l' := by
  induction l generalizing l' with
  | nil => exact (List.map_eq_nil_iff.mp h.symm).symm
  | cons a l ih =>
    match l', h with
    | b :: l', h =>
      rw [List.map_cons, List.map_cons, List.cons.injEq] at h
      rw [hinj a List.mem_cons_self b List.mem_cons_self h.1]
      rw [ih (fun x hx y hy => hinj x (List.mem_cons_of_mem a hx) y (List.mem_cons_of_mem b hy))
        h.2]

/-- The root depends on the paddings in use alone. -/
theorem levelRoot_congr (hne : level ≠ []) (h : PadsAgree pads pads' level.length) :
    levelRoot node pads level = levelRoot node pads' level := by
  induction pads, level using levelRoot.induct node generalizing pads' with
  | case1 => exact absurd rfl hne
  | case2 pads root => rw [levelRoot, levelRoot]
  | case3 pads a b rest ih =>
    obtain ⟨hfirst, hrest⟩ := padsAgree_iff.mp h
    have hup : levelUp node (pads 0) (a :: b :: rest) =
        levelUp node (pads' 0) (a :: b :: rest) := by
      have hlong : 1 < (a :: b :: rest).length := by simp
      rw [levelUp, neighbours_congr (hfirst hlong), levelUp]
    rw [levelRoot, levelRoot, ← hup]
    refine ih (levelUp_ne_nil (List.cons_ne_nil _ _)) ?_
    rw [length_levelUp]
    exact hrest

/-- Equal roots over equally many leaves have equal leaves and equal paddings where there are any,
unless two different pairs were joined to the same value. -/
theorem levelRoot_inj (hne : level ≠ []) (hlength : level.length = level'.length)
    (hinj : ∀ p ∈ rootPairs node pads level, ∀ q ∈ rootPairs node pads' level',
      node p.1 p.2 = node q.1 q.2 → p = q)
    (h : levelRoot node pads level = levelRoot node pads' level') :
    level = level' ∧ PadsAgree pads pads' level.length := by
  induction pads, level using levelRoot.induct node generalizing pads' level' with
  | case1 => exact absurd rfl hne
  | case2 pads root =>
    obtain ⟨root', rfl⟩ := List.length_eq_one_iff.mp hlength.symm
    rw [levelRoot, levelRoot] at h
    refine ⟨congrArg (fun r => [r]) h, fun j hj => ?_⟩
    rw [List.length_singleton, width_one] at hj
    exact absurd hj (by decide)
  | case3 pads a b rest ih =>
    match level', hlength with
    | a' :: b' :: rest', hlength =>
      rw [levelRoot, levelRoot] at h
      have hlength' : (levelUp node (pads 0) (a :: b :: rest)).length =
          (levelUp node (pads' 0) (a' :: b' :: rest')).length := by
        rw [length_levelUp, length_levelUp, hlength]
      rw [rootPairs, rootPairs] at hinj
      obtain ⟨hup, hrest⟩ := ih (levelUp_ne_nil hne) hlength' (fun p hp q hq =>
        hinj p (List.mem_append_right _ hp) q (List.mem_append_right _ hq)) h
      have hpairs := eq_of_map_eq_map (fun p hp q hq =>
        hinj p (List.mem_append_left _ hp) q (List.mem_append_left _ hq)) hup
      obtain ⟨he, hfirst⟩ := neighbours_inj hlength hpairs
      rw [length_levelUp] at hrest
      exact ⟨he, padsAgree_iff.mpr ⟨fun _ => hfirst, hrest⟩⟩

/-! ## Complete trees -/

/-- The root of the complete binary tree of a depth over its leaves from left to right. -/
def completeRoot (node : α → α → α) : Nat → (Nat → α) → α
  | 0, leaf => leaf 0
  | depth + 1, leaf =>
      node (completeRoot node depth leaf) (completeRoot node depth fun i => leaf (2 ^ depth + i))

/-- The roots of the complete trees all of whose leaves are the padding. -/
def padRoot (node : α → α → α) (pad : α) : Nat → α
  | 0 => pad
  | depth + 1 => node (padRoot node pad depth) (padRoot node pad depth)

/-- The root of padding is found one level up too. -/
theorem padRoot_node (pad : α) (j : Nat) :
    padRoot node (node pad pad) j = padRoot node pad (j + 1) := by
  induction j with
  | zero => rfl
  | succ j ih => rw [padRoot, ih, padRoot.eq_2 node pad (j + 1)]

/-- The leaves may be joined first. -/
theorem completeRoot_succ (depth : Nat) (leaf : Nat → α) :
    completeRoot node (depth + 1) leaf =
      completeRoot node depth fun i => node (leaf (2 * i)) (leaf (2 * i + 1)) := by
  induction depth generalizing leaf with
  | zero => rfl
  | succ depth ih =>
    rw [completeRoot, ih, ih, completeRoot]
    congr 2
    funext i
    have hleft : 2 ^ (depth + 1) + 2 * i = 2 * (2 ^ depth + i) := by
      rw [Nat.pow_succ]
      omega
    rw [hleft, ← Nat.add_assoc, hleft]

/-- Beyond its end the level above has the padding joined with itself. -/
theorem getD_levelUp (pad : α) (level : List α) (i : Nat) :
    (levelUp node pad level).getD i (node pad pad) =
      node (level.getD (2 * i) pad) (level.getD (2 * i + 1) pad) := by
  induction level using neighbours.induct generalizing i with
  | case1 a b rest ih =>
    rw [levelUp, neighbours, List.map_cons, ← levelUp]
    cases i with
    | zero => rfl
    | succ i =>
      rw [List.getD_cons_succ, ih, Nat.mul_succ]
      simp only [List.getD_cons_succ]
  | case2 a =>
    cases i with
    | zero => rfl
    | succ i =>
      rw [Nat.mul_succ]
      simp [levelUp, neighbours]
  | case3 => simp [levelUp, neighbours]

/-- The complete tree over a list and as many paddings as it takes is the tree whose levels are
padded with what paddings make. -/
theorem completeRoot_eq_levelRoot (hne : level ≠ []) (pad : α) :
    completeRoot node (Nat.clog 2 level.length) (fun i => level.getD i pad) =
      levelRoot node (padRoot node pad) level := by
  generalize hn : level.length = n
  induction n using Nat.strong_induction_on generalizing level pad with
  | _ n ih =>
    match level, hne with
    | [root], _ =>
      rw [← hn, List.length_singleton, Nat.clog_one_right, levelRoot]
      rfl
    | a :: b :: rest, _ =>
      have hlong : 2 ≤ n := by
        rw [← hn, List.length_cons, List.length_cons]
        omega
      have hup : (levelUp node pad (a :: b :: rest)).length = (n + 2 - 1) / 2 := by
        rw [length_levelUp, hn]
        rfl
      have hlevel := ih ((n + 2 - 1) / 2) (by omega) (levelUp_ne_nil (List.cons_ne_nil _ _))
        (node pad pad) hup
      simp only [getD_levelUp] at hlevel
      rw [Nat.clog_of_two_le (by decide) hlong, completeRoot_succ, hlevel, levelRoot]
      congr 1
      funext j
      exact padRoot_node pad j

/-! ## Trees without padding -/

/-- No level but the root has an odd number of values precisely over a power of two. -/
theorem even_width_iff (hn : 0 < n) :
    (∀ j, 1 < width n j → width n j % 2 = 0) ↔ ∃ k, n = 2 ^ k := by
  induction n using Nat.strong_induction_on with
  | _ n ih =>
    constructor
    · intro hall
      by_cases hone : n = 1
      · exact ⟨0, hone⟩
      · have heven : n % 2 = 0 := hall 0 (by rw [width]; omega)
        obtain ⟨k, hk⟩ := (ih ((n + 1) / 2) (by omega) (by omega)).mp fun j => hall (j + 1)
        refine ⟨k + 1, ?_⟩
        rw [Nat.pow_succ, ← hk]
        omega
    · rintro ⟨k, hk⟩ j hj
      cases j with
      | zero =>
        rw [width] at hj ⊢
        cases k with
        | zero => omega
        | succ k =>
          rw [Nat.pow_succ] at hk
          omega
      | succ j =>
        cases k with
        | zero =>
          have hhalf : (n + 1) / 2 = n := by omega
          rw [width, hhalf, hk, Nat.pow_zero, width_one] at hj
          exact absurd hj (by decide)
        | succ k =>
          rw [Nat.pow_succ] at hk
          exact (ih ((n + 1) / 2) (by omega) (by omega)).mpr ⟨k, by omega⟩ j hj

/-- Over which numbers of leaves only the leaves themselves may have a padding. -/
theorem half_isPowerOfTwo_iff (hn : 0 < n) :
    (∃ k, (n + 1) / 2 = 2 ^ k) ↔ ∃ k, n = 2 ^ k ∨ n + 1 = 2 ^ k := by
  constructor
  · rintro ⟨k, hk⟩
    refine ⟨k + 1, ?_⟩
    rw [Nat.pow_succ]
    omega
  · rintro ⟨k, hk⟩
    cases k with
    | zero => exact ⟨0, by omega⟩
    | succ k =>
      rw [Nat.pow_succ] at hk
      exact ⟨k, by omega⟩

/-- Padding every level with the first padding gives the complete tree if only the leaves have a
padding, and the other paddings of the complete tree differ from the first. -/
theorem padsAgree_padRoot_iff (hn : 0 < n)
    (hpad : ∀ j, 1 < width n (j + 1) → padRoot node pad (j + 1) ≠ pad) :
    PadsAgree (fun _ => pad) (padRoot node pad) n ↔ ∃ k, n = 2 ^ k ∨ n + 1 = 2 ^ k := by
  rw [← half_isPowerOfTwo_iff hn, ← even_width_iff (by omega), padsAgree_iff]
  constructor
  · rintro ⟨-, hrest⟩ j hj
    by_contra hodd
    exact hpad j hj (hrest j hj (by omega)).symm
  · intro heven
    refine ⟨fun _ _ => rfl, fun j hj hodd => ?_⟩
    rw [heven j hj] at hodd
    exact absurd hodd (by decide)

/-- Over these numbers of leaves this needs no condition. -/
theorem padsAgree_padRoot (hn : 0 < n) (h : ∃ k, n = 2 ^ k ∨ n + 1 = 2 ^ k) :
    PadsAgree (fun _ => pad) (padRoot node pad) n := by
  have heven := (even_width_iff (by omega)).mpr ((half_isPowerOfTwo_iff hn).mpr h)
  refine padsAgree_iff.mpr ⟨fun _ _ => rfl, fun j hj hodd => ?_⟩
  rw [heven j hj] at hodd
  exact absurd hodd (by decide)

/-! ## A tree that shows its padding -/

/-- A way of joining that spoils the root as soon as a padding is used above the leaves. -/
structure Marks (node : α → α → α) (pad leaf good bad : α) : Prop where
  leaves : node leaf leaf = good
  last : node leaf pad = good
  pads : node pad pad = good
  clean : node good good = good
  padded : node good pad = bad
  spoilt : node good bad = bad
  kept : node bad pad = bad

/-- The root of a level of at least two nodes is that of the level above. -/
theorem levelRoot_of_two_le (h : 2 ≤ level.length) :
    levelRoot node pads level =
      levelRoot node (fun j => pads (j + 1)) (levelUp node (pads 0) level) := by
  match level, h with
  | a :: b :: rest, _ => rw [levelRoot]

/-- Two levels are raised one after the other, if the first is even. -/
theorem levelUp_append (heven : level.length % 2 = 0) :
    levelUp node pad (level ++ level') = levelUp node pad level ++ levelUp node pad level' := by
  induction level using neighbours.induct with
  | case1 a b rest ih =>
    rw [List.length_cons, List.length_cons] at heven
    have hrest := ih (by omega)
    simp only [levelUp] at hrest ⊢
    rw [List.cons_append, List.cons_append, neighbours, List.map_cons, hrest, neighbours,
      List.map_cons, List.cons_append]
  | case2 a => exact absurd heven (by simp)
  | case3 => simp [levelUp, neighbours]

/-- Equal nodes have equal parents. -/
theorem levelUp_replicate (m : Nat) (x : α) :
    levelUp node pad (List.replicate (2 * m) x) = List.replicate m (node x x) := by
  induction m with
  | zero => simp [levelUp, neighbours]
  | succ m ih =>
    rw [Nat.mul_succ, List.replicate_succ, List.replicate_succ, levelUp, neighbours,
      List.map_cons, ← levelUp, ih, List.replicate_succ]

/-- A single last node is paired with padding. -/
theorem levelUp_replicate_concat (m : Nat) (x y : α) :
    levelUp node pad (List.replicate (2 * m) x ++ [y]) =
      List.replicate m (node x x) ++ [node y pad] := by
  rw [levelUp_append (by simp), levelUp_replicate]
  simp [levelUp, neighbours]

/-- If the padding joins as the value itself does, it makes no difference. -/
theorem levelUp_replicate_of_eq {x : α} (hx : node x pad = node x x) (n : Nat) :
    levelUp node pad (List.replicate n x) = List.replicate ((n + 1) / 2) (node x x) := by
  obtain ⟨m, rfl | rfl⟩ := Nat.even_or_odd' n
  · rw [levelUp_replicate]
    congr 1
    omega
  · rw [List.replicate_succ', levelUp_replicate_concat, hx, ← List.replicate_succ']
    congr 1
    omega

/-- Joining one value with itself only. -/
theorem levelRoot_replicate {x : α} (hx : node x x = x) (hpads : ∀ j, pads j = x) (n : Nat) :
    levelRoot node pads (List.replicate n x) = x := by
  induction n using Nat.strong_induction_on generalizing pads with
  | _ n ih =>
    rcases (by omega : n = 0 ∨ n = 1 ∨ 2 ≤ n) with rfl | rfl | hlong
    · rw [List.replicate_zero, levelRoot, hpads]
    · rw [List.replicate_one, levelRoot]
    · rw [levelRoot_of_two_le (by rwa [List.length_replicate]), hpads,
        levelUp_replicate_of_eq rfl, hx]
      exact ih ((n + 1) / 2) (by omega) fun j => hpads (j + 1)

namespace Marks

variable {leaf good bad : α}

/-- A spoilt last value spoils the root. -/
theorem levelRoot_spoilt (h : Marks node pad leaf good bad) (m : Nat) :
    levelRoot node (fun _ => pad) (List.replicate m good ++ [bad]) = bad := by
  induction m using Nat.strong_induction_on with
  | _ m ih =>
    by_cases hzero : m = 0
    · rw [hzero, List.replicate_zero, List.nil_append, levelRoot]
    · have hup : levelUp node pad (List.replicate m good ++ [bad]) =
          List.replicate (m / 2) good ++ [bad] := by
        obtain ⟨k, rfl | rfl⟩ := Nat.even_or_odd' m
        · rw [levelUp_replicate_concat, h.clean, h.kept]
          congr 2
          omega
        · rw [List.replicate_succ', List.append_assoc, levelUp_append (by simp),
            levelUp_replicate, h.clean]
          simp only [List.singleton_append, levelUp, neighbours, List.map_cons, List.map_nil,
            h.spoilt]
          congr 2
          omega
      rw [levelRoot_of_two_le (by simp; omega), hup]
      exact ih (m / 2) (by omega)

/-- A level with an odd number of values is met unless the number is a power of two. -/
theorem levelRoot_good (h : Marks node pad leaf good bad) {m : Nat} (hm : 0 < m)
    (hnot : ¬ ∃ k, m = 2 ^ k) :
    levelRoot node (fun _ => pad) (List.replicate m good) = bad := by
  induction m using Nat.strong_induction_on with
  | _ m ih =>
    have hone : m ≠ 1 := fun he => hnot ⟨0, he⟩
    rw [levelRoot_of_two_le (by rw [List.length_replicate]; omega)]
    obtain ⟨k, rfl | rfl⟩ := Nat.even_or_odd' m
    · rw [levelUp_replicate, h.clean]
      refine ih k (by omega) (by omega) ?_
      rintro ⟨e, he⟩
      exact hnot ⟨e + 1, by rw [he, Nat.pow_succ]; omega⟩
    · rw [List.replicate_succ', levelUp_replicate_concat, h.clean, h.padded]
      exact h.levelRoot_spoilt k

/-- The roots of padding are marked good. -/
theorem padRoot_eq (h : Marks node pad leaf good bad) (j : Nat) :
    padRoot node pad (j + 1) = good := by
  induction j with
  | zero => exact h.pads
  | succ j ih => rw [padRoot.eq_2, ih, h.clean]

/-- Where a level above the leaves is padded, the two ways of padding have different roots. -/
theorem levelRoot_ne (h : Marks node pad leaf good bad) (hbad : good ≠ bad) (hn : 0 < n)
    (hnot : ¬ ∃ k, n = 2 ^ k ∨ n + 1 = 2 ^ k) :
    levelRoot node (fun _ => pad) (List.replicate n leaf) ≠
      levelRoot node (padRoot node pad) (List.replicate n leaf) := by
  have hlong : 2 ≤ (List.replicate n leaf).length := by
    have hone : n ≠ 1 := fun he => hnot ⟨0, Or.inl he⟩
    rw [List.length_replicate]
    omega
  rw [levelRoot_of_two_le hlong, levelRoot_of_two_le hlong, padRoot,
    levelUp_replicate_of_eq (h.last.trans h.leaves.symm), h.leaves,
    h.levelRoot_good (by omega) (mt (half_isPowerOfTwo_iff hn).mp hnot),
    levelRoot_replicate h.clean h.padRoot_eq]
  exact hbad.symm

end Marks

end Bqti.Core
