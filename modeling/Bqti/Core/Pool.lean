import Mathlib.Algebra.Order.Ring.Int
import Mathlib.Data.List.Basic
import Mathlib.Algebra.BigOperators.Group.List.Basic
import Mathlib.Tactic.Common

/-!
# Pools of numbered tasks

A pool is a list whose entries keep their number: an entry is replaced in place and new
entries come behind the last one. A total over the pool changes by what the replaced
entry contributed.
-/

namespace Bqti.Core

variable {α β : Type*} {l : List α} {k : Nat} {x y z : α}

/-- Replacing an entry exchanges its contribution to a total. -/
theorem sum_map_set (f : α → Nat) (h : l[k]? = some x) :
    ((l.set k y).map f).sum + f x = (l.map f).sum + f y := by
  induction l generalizing k with
  | nil => exact absurd h (by simp)
  | cons a l ih =>
    cases k with
    | zero =>
      have he : a = x := by simpa using h
      simp only [List.set_cons_zero, List.map_cons, List.sum_cons, he]
      omega
    | succ k =>
      have hk := ih (by simpa using h)
      simp only [List.set_cons_succ, List.map_cons, List.sum_cons]
      omega

/-- Replacing an entry by one with the same image keeps all images. -/
theorem map_set_eq (f : α → β) (h : l[k]? = some x) (hy : f y = f x) :
    (l.set k y).map f = l.map f := by
  apply List.ext_getElem?
  intro j
  rw [List.getElem?_map, List.getElem?_map]
  by_cases hj : k = j
  · subst hj
    rw [List.getElem?_set_self (List.getElem?_eq_some_iff.mp h).1, h, Option.map_some,
      Option.map_some, hy]
  · rw [List.getElem?_set_ne hj]

/-- Changing an entry behind its image keeps all images. -/
theorem map_modify_eq (f : α → β) (l : List α) (k : Nat) (g : α → α) (hg : ∀ x, f (g x) = f x) :
    (l.modify k g).map f = l.map f := by
  apply List.ext_getElem?
  intro j
  rw [List.getElem?_map, List.getElem?_modify, List.getElem?_map]
  cases l[j]? with
  | none => rfl
  | some x =>
    simp only [Option.map_eq_map, Option.map_some]
    split
    · rw [hg x]
    · rfl

/-- Every entry of a changed pool is an old entry or the changed one. -/
theorem mem_modify {g : α → α} (hz : z ∈ l.modify k g) :
    z ∈ l ∨ ∃ x, l[k]? = some x ∧ z = g x := by
  obtain ⟨j, hj⟩ := List.getElem?_of_mem hz
  rw [List.getElem?_modify] at hj
  obtain ⟨x, hx, he⟩ := Option.map_eq_some_iff.mp hj
  split at he
  · rename_i hkj
    exact Or.inr ⟨x, hkj ▸ hx, he.symm⟩
  · exact Or.inl (he ▸ List.mem_of_getElem? hx)

/-- The new entry is in the pool. -/
theorem mem_set_new (h : l[k]? = some x) : y ∈ l.set k y := by
  apply List.mem_of_getElem? (i := k)
  exact List.getElem?_set_self (List.getElem?_eq_some_iff.mp h).1

/-- Removing one entry of a pool takes its weight away. -/
theorem sum_map_eraseIdx (f : α → Nat) (h : l[k]? = some x) :
    ((l.eraseIdx k).map f).sum + f x = (l.map f).sum := by
  induction l generalizing k with
  | nil => exact absurd h (by simp)
  | cons a l ih =>
    cases k with
    | zero =>
      obtain rfl := Option.some.inj h
      simp only [List.eraseIdx_zero, List.tail_cons, List.map_cons, List.sum_cons]
      omega
    | succ k =>
      have hrest := ih (k := k) h
      simp only [List.eraseIdx_cons_succ, List.map_cons, List.sum_cons]
      omega

/-- Every entry but the replaced one stays in the pool. -/
theorem eq_or_mem_set (h : l[k]? = some x) (hz : z ∈ l) : z = x ∨ z ∈ l.set k y := by
  obtain ⟨j, hj⟩ := List.getElem?_of_mem hz
  by_cases hjk : k = j
  · subst hjk
    exact Or.inl (Option.some.inj (hj.symm.trans h))
  · exact Or.inr (List.mem_of_getElem? ((List.getElem?_set_ne hjk).trans hj))

/-- What is in the pool without an entry is still there when that entry is replaced. -/
theorem mem_set_of_mem_eraseIdx (hz : z ∈ l.eraseIdx k) : z ∈ l.set k y := by
  obtain ⟨j, hjk, hj⟩ := List.mem_eraseIdx_iff_getElem?.mp hz
  exact List.mem_of_getElem? ((List.getElem?_set_ne (Ne.symm hjk)).trans hj)

/-- Each entry keeps its number, and only the replaced one changes. -/
theorem getElem?_set_cases {j : Nat} (y : α) (hk : l[k]? = some x) (hj : l[j]? = some z) :
    (j = k ∧ z = x ∧ (l.set k y)[j]? = some y) ∨ (j ≠ k ∧ (l.set k y)[j]? = some z) := by
  by_cases h : j = k
  · subst h
    refine Or.inl ⟨rfl, Option.some.inj (hj.symm.trans hk), ?_⟩
    exact List.getElem?_set_self (List.getElem?_eq_some_iff.mp hk).1
  · exact Or.inr ⟨h, (List.getElem?_set_ne (Ne.symm h)).trans hj⟩

/-- An entry found after a replacement is the new one or an old one elsewhere. -/
theorem of_getElem?_set {j : Nat} (h : (l.set k y)[j]? = some z) :
    (j = k ∧ z = y) ∨ (j ≠ k ∧ l[j]? = some z) := by
  by_cases hjk : j = k
  · subst hjk
    rw [List.getElem?_set_self'] at h
    obtain ⟨_, _, he⟩ := Option.map_eq_some_iff.mp h
    exact Or.inl ⟨rfl, he.symm⟩
  · exact Or.inr ⟨hjk, (List.getElem?_set_ne (Ne.symm hjk)).symm.trans h⟩

/-- An entry of a longer pool is an old one or the new last one. -/
theorem of_getElem?_concat {j : Nat} (h : (l ++ [y])[j]? = some z) :
    l[j]? = some z ∨ (j = l.length ∧ z = y) := by
  rw [List.getElem?_append] at h
  split at h
  · exact Or.inl h
  · rename_i hj
    obtain ⟨hlt, he⟩ := List.getElem?_eq_some_iff.mp h
    rw [List.length_singleton] at hlt
    refine Or.inr ⟨by omega, ?_⟩
    rw [← he]
    exact List.getElem_singleton hlt

/-- What holds of every entry and of the new one holds after the replacement. -/
theorem forall_mem_set {P : α → Prop} (h : ∀ x ∈ l, P x) (hy : P y) : ∀ x ∈ l.set k y, P x := by
  intro x hx
  rcases List.mem_or_eq_of_mem_set hx with hx | rfl
  · exact h x hx
  · exact hy

/-- What holds of every entry and of a new last one holds of the longer pool. -/
theorem forall_mem_concat {P : α → Prop} (h : ∀ x ∈ l, P x) (hy : P y) :
    ∀ x ∈ l ++ [y], P x := by
  intro x hx
  rcases List.mem_append.mp hx with hx | hx
  · exact h x hx
  · exact List.mem_singleton.mp hx ▸ hy

/-- Replacing an entry exchanges what it contributes to a concatenation, up to order. -/
theorem perm_flatMap_set (f : α → List β) (h : l[k]? = some x) :
    (f x ++ (l.set k y).flatMap f).Perm (f y ++ l.flatMap f) := by
  induction l generalizing k with
  | nil => exact absurd h (by simp)
  | cons a l ih =>
    cases k with
    | zero =>
      have he : a = x := by simpa using h
      subst he
      exact List.perm_append_comm_assoc _ _ _
    | succ k =>
      have hk := ih (by simpa using h)
      rw [List.set_cons_succ, List.flatMap_cons, List.flatMap_cons]
      exact (List.perm_append_comm_assoc _ _ _).trans
        ((hk.append_left (f a)).trans (List.perm_append_comm_assoc _ _ _))

/-- An entry with a contribution is not in a pool whose total is zero. -/
theorem eq_zero_of_sum_map_eq_zero {f : α → Nat} (h : (l.map f).sum = 0) (hz : z ∈ l) :
    f z = 0 :=
  List.sum_eq_zero_iff_forall_eq_nat.mp h (f z) (List.mem_map_of_mem hz)

end Bqti.Core
