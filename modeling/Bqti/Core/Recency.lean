import Mathlib.Data.List.Dedup
import Mathlib.Data.List.DropRight
import Mathlib.Tactic.Common

/-!
# The most recent elements of a sequence

The distinct elements of a sequence stand in the order of their last occurrence in `dedup`. A
bounded memory keeps the last of them: what comes again moves to the end, and what is new takes
the place of the oldest once the memory is full.
-/

namespace Bqti.Core

section Last

variable {α : Type*} {l : List α} {n : Nat}

/-- The last elements behind any others. -/
theorem rtake_append_of_length {front back : List α} (h : back.length = n) :
    (front ++ back).rtake n = back := by
  rw [List.rtake, List.length_append, h, Nat.add_sub_cancel, List.drop_left]

/-- The end of a short list is the whole list. -/
theorem rtake_of_length_le (h : l.length ≤ n) : l.rtake n = l := by
  rw [List.rtake, Nat.sub_eq_zero_of_le h, List.drop_zero]

end Last

variable {α : Type*} [DecidableEq α] {l : List α} {a b : α} {n : Nat}

/-- Keep an element in a memory of a given size, whose oldest element comes first. -/
def remember (n : Nat) (kept : List α) (a : α) : List α :=
  if a ∈ kept then kept.filter (· ≠ a) ++ [a]
  else (if kept.length ≥ n then kept.tail else kept) ++ [a]

/-- The last distinct elements, oldest first. -/
def recent (n : Nat) (l : List α) : List α := l.dedup.rtake n

/-- The last element is the most recent one. -/
theorem dedup_concat (l : List α) (a : α) : (l ++ [a]).dedup = l.dedup.filter (· ≠ a) ++ [a] := by
  induction l with
  | nil => simp
  | cons x l ih =>
    rw [List.cons_append]
    by_cases hx : x ∈ l
    · rw [List.dedup_cons_of_mem (List.mem_append_left _ hx), List.dedup_cons_of_mem hx, ih]
    · rw [List.dedup_cons_of_notMem hx, List.filter_cons]
      by_cases hxa : x = a
      · subst hxa
        rw [List.dedup_cons_of_mem (List.mem_append_right _ (List.mem_singleton_self x)), ih]
        simp
      · have hnot : x ∉ l ++ [a] := by simp [hx, hxa]
        rw [List.dedup_cons_of_notMem hnot, ih]
        simp [hxa]

/-- What stands earlier was last met earlier. -/
theorem exists_last_of_dedup {front back : List α} (h : l.dedup = front ++ a :: back)
    (hb : b ∈ back) : ∃ x y, l = x ++ a :: y ∧ a ∉ y ∧ b ∈ y := by
  induction l generalizing front with
  | nil =>
    rw [List.dedup_nil] at h
    simp at h
  | cons c l ih =>
    by_cases hc : c ∈ l
    · rw [List.dedup_cons_of_mem hc] at h
      obtain ⟨x, y, rfl, ha, hb⟩ := ih h
      exact ⟨c :: x, y, rfl, ha, hb⟩
    · rw [List.dedup_cons_of_notMem hc] at h
      cases front with
      | nil =>
        obtain ⟨rfl, hback⟩ := List.cons.inj h
        refine ⟨[], l, rfl, hc, ?_⟩
        rw [← List.mem_dedup, hback]
        exact hb
      | cons d front =>
        obtain ⟨x, y, rfl, ha, hb⟩ := ih (List.cons.inj h).2
        exact ⟨c :: x, y, rfl, ha, hb⟩

/-- Among distinct elements there is one that the others go without. -/
theorem length_filter_ne (hnodup : l.Nodup) (h : a ∈ l) :
    (l.filter (· ≠ a)).length + 1 = l.length := by
  have hcount := List.length_eq_length_filter_add (l := l) (· ≠ a)
  have hsingle : (l.filter fun x => !decide (x ≠ a)).length = 1 := by
    simp only [decide_not, Bool.not_not]
    rw [← List.countP_eq_length_filter]
    exact List.count_eq_one_of_mem hnodup h
  omega

@[simp] theorem recent_nil (n : Nat) : recent n ([] : List α) = [] := List.rtake_nil n

/-- The recent ones are the last of the list without repetitions. -/
theorem recent_eq_drop (n : Nat) (l : List α) :
    recent n l = l.dedup.drop (l.dedup.length - n) := rfl

/-- What is not recent is older, and there is some only if there are enough recent ones. -/
theorem exists_older (n : Nat) (l : List α) : ∃ older, l.dedup = older ++ recent n l ∧
    (older = [] ∨ (recent n l).length = n) := by
  refine ⟨l.dedup.take (l.dedup.length - n), (List.take_append_drop _ _).symm, ?_⟩
  by_cases hle : l.dedup.length ≤ n
  · left
    rw [Nat.sub_eq_zero_of_le hle, List.take_zero]
  · right
    rw [recent_eq_drop, List.length_drop]
    omega

/-- There are at most as many recent ones as there is room for. -/
theorem length_recent_le (n : Nat) (l : List α) : (recent n l).length ≤ n := by
  rw [recent_eq_drop, List.length_drop]
  omega

/-- A bounded memory holds the most recent elements. -/
theorem remember_recent (hn : 0 < n) (l : List α) (a : α) :
    remember n (recent n l) a = recent n (l ++ [a]) := by
  obtain ⟨older, hsplit, hfull⟩ := exists_older n l
  obtain ⟨m, rfl⟩ : ∃ m, n = m + 1 := ⟨n - 1, by omega⟩
  have hlen := length_recent_le (m + 1) l
  have hnodup := List.nodup_dedup l
  rw [hsplit] at hnodup
  have hgoal : recent (m + 1) (l ++ [a]) =
      (older.filter (· ≠ a) ++ (recent (m + 1) l).filter (· ≠ a)).rtake m ++ [a] := by
    rw [recent, dedup_concat, List.rtake_concat_succ, hsplit, List.filter_append]
  rw [hgoal, remember]
  generalize recent (m + 1) l = kept at *
  by_cases hmem : a ∈ kept
  · rw [if_pos hmem]
    congr 1
    have hone := length_filter_ne (List.nodup_append.mp hnodup).2.1 hmem
    rcases hfull with rfl | hfull
    · exact (rtake_of_length_le (by omega)).symm
    · exact (rtake_append_of_length (by omega)).symm
  · rw [if_neg hmem]
    congr 1
    have hall : kept.filter (· ≠ a) = kept :=
      List.filter_eq_self.mpr fun x hx => decide_eq_true fun hxa => hmem (hxa ▸ hx)
    rw [hall]
    by_cases hge : kept.length ≥ m + 1
    · rw [if_pos hge]
      cases kept with
      | nil => simp at hge
      | cons x kept =>
        rw [List.length_cons] at hge hlen
        rw [List.tail_cons, ← List.singleton_append, ← List.append_assoc]
        exact (rtake_append_of_length (by omega)).symm
    · rw [if_neg hge]
      obtain rfl := hfull.resolve_right (by omega)
      exact (rtake_of_length_le (by omega)).symm

end Bqti.Core
