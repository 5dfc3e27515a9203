import Mathlib.Data.List.Nodup
import Mathlib.Tactic.Common

/-!
# Lists of records with a key

A list of records is searched by a key: the records of a key are removed together, a record is
appended, and only the first record of a key is changed. Each of these is described by what it
does to the records of one key.
-/

namespace Bqti.Core

variable {α K : Type*} [DecidableEq K] (key : α → K)

/-- The records of a key, in their order. -/
def records (k : K) (l : List α) : List α := l.filter fun a => key a = k

/-- Change the first record of a key. -/
def changeFirst (k : K) (f : α → α) : List α → List α
  | [] => []
  | a :: l => if key a = k then f a :: l else a :: changeFirst k f l

/-- The change of a list is the change of its first record. -/
def changeHead (f : α → α) : List α → List α
  | [] => []
  | a :: l => f a :: l

variable {key} {k : K} {l : List α}

/-- The first record counts if it has the key. -/
theorem records_cons (a : α) : records key k (a :: l) =
    if key a = k then a :: records key k l else records key k l := by
  rw [records, List.filter_cons]
  simp only [decide_eq_true_eq]
  rfl

/-- The records of a key in two lists are those in each of them. -/
theorem records_append (l' : List α) :
    records key k (l ++ l') = records key k l ++ records key k l' := List.filter_append ..

/-- Removing the records of one key leaves those of the others. -/
theorem records_filter_ne (j : K) :
    records key k (l.filter fun a => key a ≠ j) = if j = k then [] else records key k l := by
  rw [records, List.filter_filter]
  split
  · rename_i hjk
    rw [List.filter_eq_nil_iff]
    intro a _
    simp [hjk]
  · rename_i hjk
    refine List.filter_congr fun a _ => ?_
    by_cases hk : key a = k
    · have hne : key a ≠ j := fun hj => hjk (hj.symm.trans hk)
      simp [hk, hk ▸ hne]
    · simp [hk]

/-- Changing the first record of a key changes the first of its records, and no others. -/
theorem records_changeFirst (j : K) {f : α → α} (hf : ∀ a, key (f a) = key a) :
    records key k (changeFirst key j f l) =
      if j = k then changeHead f (records key k l) else records key k l := by
  induction l with
  | nil => split <;> rfl
  | cons a l ih =>
    rw [changeFirst]
    by_cases ha : key a = j
    · rw [if_pos ha, records_cons, records_cons, hf, ha]
      split <;> rfl
    · rw [if_neg ha, records_cons, records_cons, ih]
      by_cases hjk : j = k
      · have hak : key a ≠ k := fun hk => ha (hk.trans hjk.symm)
        rw [if_pos hjk, if_neg hak, if_neg hak, if_pos hjk]
      · rw [if_neg hjk, if_neg hjk]

/-- The records of a key can be changed on their own. -/
theorem records_changeFirst_self {f : α → α} (hf : ∀ a, key (f a) = key a) :
    records key k (changeFirst key k f l) = changeFirst key k f (records key k l) := by
  rw [records_changeFirst k hf, if_pos rfl]
  cases hrecords : records key k l with
  | nil => rfl
  | cons a rest =>
    have ha : key a = k := by
      have hmem : a ∈ records key k l := hrecords ▸ List.mem_cons_self
      simpa using (List.mem_filter.mp hmem).2
    rw [changeHead, changeFirst, if_pos ha]

/-- When no key is there twice, a record is the only one of its key. -/
theorem records_eq_singleton (hnodup : (l.map key).Nodup) {a : α} (ha : a ∈ l) :
    records key (key a) l = [a] := by
  induction l with
  | nil => exact absurd ha List.not_mem_nil
  | cons first l ih =>
    rw [List.map_cons, List.nodup_cons] at hnodup
    rw [records_cons]
    rcases List.mem_cons.mp ha with rfl | hrest
    · have hnone : records key (key a) l = [] := by
        rw [records, List.filter_eq_nil_iff]
        intro b hb hkey
        exact hnodup.1 (List.mem_map.mpr ⟨b, hb, by simpa using hkey⟩)
      rw [if_pos rfl, hnone]
    · have hne : key first ≠ key a := fun heq =>
        hnodup.1 (List.mem_map.mpr ⟨a, hrest, heq.symm⟩)
      rw [if_neg hne, ih hnodup.2 hrest]

/-- A key has no records if no record has the key. -/
theorem records_eq_nil_iff : records key k l = [] ↔ ∀ a ∈ l, key a ≠ k := by
  simp [records]

end Bqti.Core
