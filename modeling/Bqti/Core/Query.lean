import Mathlib.Data.List.Basic
import Mathlib.Tactic.Common

/-!
# Parts between separators

A text is cut at every occurrence of a separator, and a part of it once more at the first
occurrence of another one. A part that is cut out never holds the separator, so that what was put
together can only come back if its parts did not hold it either.
-/

namespace Bqti.Core

/-- All parts but the first come after a separator. -/
theorem intercalate_cons {α : Type*} (sep : α) (first : List α) (parts : List (List α)) :
    [sep].intercalate (first :: parts) = first ++ parts.flatMap fun part => sep :: part := by
  induction parts generalizing first with
  | nil => simp
  | cons second parts ih =>
    rw [List.intercalate_cons_cons, ih, List.flatMap_cons]
    simp

/-- What is put together holds nothing but its parts and the separator. -/
theorem mem_intercalate {α : Type*} {sep c : α} (hc : c ≠ sep) (parts : List (List α)) :
    c ∈ [sep].intercalate parts ↔ ∃ part ∈ parts, c ∈ part := by
  cases parts with
  | nil => simp
  | cons first parts =>
    rw [intercalate_cons]
    simp [hc]

variable {α : Type*} [DecidableEq α] {sep : α}

/-- What stands before the first separator and what stands after it. -/
def splitOnce (sep : α) : List α → Option (List α × List α)
  | [] => none
  | c :: text =>
      if c = sep then some ([], text)
      else (splitOnce sep text).map fun (before, after) => (c :: before, after)

/-- A list is split at the first separator. -/
theorem splitOnce_append {before : List α} (h : sep ∉ before) (after : List α) :
    splitOnce sep (before ++ sep :: after) = some (before, after) := by
  induction before with
  | nil => rw [List.nil_append, splitOnce, if_pos rfl]
  | cons c before ih =>
    have hc : c ≠ sep := fun heq => h (heq ▸ List.mem_cons_self)
    rw [List.cons_append, splitOnce, if_neg hc, ih (fun hmem => h (List.mem_cons_of_mem _ hmem)),
      Option.map_some]

/-- The two parts and the separator are the whole text. -/
theorem eq_of_splitOnce {text before after : List α}
    (h : splitOnce sep text = some (before, after)) :
    text = before ++ sep :: after := by
  induction text generalizing before with
  | nil => exact absurd h (by simp [splitOnce])
  | cons c text ih =>
    rw [splitOnce] at h
    split at h
    · rename_i hc
      obtain ⟨rfl, rfl⟩ := Prod.mk.inj (Option.some.inj h)
      rw [hc, List.nil_append]
    · obtain ⟨⟨front, back⟩, hsplit, heq⟩ := Option.map_eq_some_iff.mp h
      obtain ⟨rfl, rfl⟩ := Prod.mk.inj heq
      rw [ih hsplit, List.cons_append]

/-- The parts of a text do not hold the separator. -/
theorem not_mem_of_mem_splitOn {text part : List α} (h : part ∈ text.splitOn sep) : sep ∉ part := by
  induction text generalizing part with
  | nil =>
    rw [List.splitOn_nil, List.mem_singleton] at h
    rw [h]
    exact List.not_mem_nil
  | cons c text ih =>
    rw [List.splitOn_cons_eq_if_modifyHead] at h
    split at h
    · rcases List.mem_cons.mp h with rfl | h
      · exact List.not_mem_nil
      · exact ih h
    · rename_i hc
      cases hparts : text.splitOn sep with
      | nil => exact absurd hparts (List.splitOn_ne_nil sep text)
      | cons first parts =>
        rw [hparts, List.modifyHead_cons] at h
        rw [hparts] at ih
        rcases List.mem_cons.mp h with rfl | h
        · rw [List.mem_cons, not_or]
          exact ⟨fun heq => hc (by simp [heq]), ih List.mem_cons_self⟩
        · exact ih (List.mem_cons_of_mem _ h)

end Bqti.Core
