import Mathlib.Data.Finset.Card
import Mathlib.Data.Finset.SDiff

/-!
# Differences under a budget

A set without an order is walked through as a list that has each member once. What is taken from
such a list under a budget is the whole set precisely when the set fits into the budget. A view is
revised by removing what is dropped and then adding what is added; two sets are brought into
agreement by a cut difference precisely when the difference fits.
-/

namespace Bqti.Core

variable {α : Type*} [DecidableEq α]

/-- A list has each member of a set once. -/
def Lists (l : List α) (s : Finset α) : Prop := l.Nodup ∧ l.toFinset = s

instance (l : List α) (s : Finset α) : Decidable (Lists l s) :=
  inferInstanceAs (Decidable (l.Nodup ∧ l.toFinset = s))

variable {l : List α} {s t : Finset α} {n : Nat}

/-- A listing has the elements of its set. -/
theorem Lists.mem_iff (h : Lists l s) {x : α} : x ∈ l ↔ x ∈ s := by
  rw [← h.2, List.mem_toFinset]

/-- A listing is as long as its set. -/
theorem Lists.length_eq (h : Lists l s) : l.length = s.card := by
  rw [← h.2, List.toFinset_card_of_nodup h.1]

/-- A listing is empty if its set is. -/
theorem Lists.eq_nil_iff (h : Lists l s) : l = [] ↔ s = ∅ := by
  rw [← h.2, List.toFinset_eq_empty_iff]

/-- Every set can be listed, and any member may come first. -/
theorem exists_lists_cons {x : α} (hx : x ∈ s) : ∃ l, Lists (x :: l) s := by
  refine ⟨(s.erase x).toList, ?_, ?_⟩
  · rw [List.nodup_cons]
    refine ⟨?_, Finset.nodup_toList _⟩
    simp
  · ext y
    by_cases hy : y = x
    · simp [hy, hx]
    · simp [hy]

/-- Any member may come last. -/
theorem exists_lists_concat {x : α} (hx : x ∈ s) : ∃ l, Lists (l ++ [x]) s := by
  obtain ⟨l, hnodup, hl⟩ := exists_lists_cons hx
  refine ⟨l, ?_, ?_⟩
  · rw [List.nodup_append_comm]
    exact hnodup
  · rw [← hl]
    ext y
    simp

/-- Every set can be listed. -/
theorem exists_lists (s : Finset α) : ∃ l, Lists l s :=
  ⟨s.toList, Finset.nodup_toList s, Finset.toList_toFinset s⟩

/-- Walking through one set and leaving out another. -/
theorem Lists.filter_notMem (h : Lists l s) (t : Finset α) :
    Lists (l.filter (· ∉ t)) (s \ t) := by
  refine ⟨h.1.filter _, ?_⟩
  ext x
  simp [h.mem_iff]

/-- A budget takes everything precisely when everything fits. -/
theorem Lists.forall_mem_take_iff (h : Lists l s) : (∀ x ∈ s, x ∈ l.take n) ↔ s.card ≤ n := by
  constructor
  · intro hall
    have hsub : s ⊆ (l.take n).toFinset := fun x hx => List.mem_toFinset.mpr (hall x hx)
    calc s.card ≤ (l.take n).toFinset.card := Finset.card_le_card hsub
      _ ≤ (l.take n).length := List.toFinset_card_le _
      _ ≤ n := List.length_take_le n l
  · intro hle x hx
    rw [List.take_of_length_le (h.length_eq.trans_le hle)]
    exact h.mem_iff.mpr hx

/-- Remove what is dropped, then add what is added. -/
def revise (view : Finset α) (dropped added : List α) : Finset α :=
  (view \ dropped.toFinset) ∪ added.toFinset

/-- A revised set holds what was not dropped and what was added. -/
theorem mem_revise {view : Finset α} {dropped added : List α} {x : α} :
    x ∈ revise view dropped added ↔ x ∈ view ∧ x ∉ dropped ∨ x ∈ added := by
  simp [revise]

/-- A cut list of a set makes a view that set precisely when the view has nothing else and all
that was cut off. -/
theorem revise_take_eq_iff {view : Finset α} (h : Lists l s) :
    revise view [] (l.take n) = s ↔ view ⊆ s ∧ ∀ x ∈ l.drop n, x ∈ view := by
  constructor
  · intro heq
    refine ⟨fun x hx => heq ▸ mem_revise.mpr (Or.inl ⟨hx, List.not_mem_nil⟩), fun x hx => ?_⟩
    have hmem : x ∈ revise view [] (l.take n) := heq ▸ h.mem_iff.mp (List.mem_of_mem_drop hx)
    rcases mem_revise.mp hmem with ⟨hview, -⟩ | htake
    · exact hview
    · exact absurd hx (List.disjoint_take_drop h.1 (Nat.le_refl n) htake)
  · rintro ⟨hsub, hrest⟩
    ext x
    rw [mem_revise]
    constructor
    · rintro (⟨hview, -⟩ | htake)
      · exact hsub hview
      · exact h.mem_iff.mp (List.mem_of_mem_take htake)
    · intro hx
      have hl : x ∈ l.take n ++ l.drop n := by
        rw [List.take_append_drop]
        exact h.mem_iff.mpr hx
      rcases List.mem_append.mp hl with htake | hdrop
      · exact Or.inr htake
      · exact Or.inl ⟨hrest x hdrop, List.not_mem_nil⟩

/-- In whatever order the set is listed. -/
theorem forall_revise_take_eq_iff {view : Finset α} :
    (∀ l, Lists l s → revise view [] (l.take n) = s) ↔ view ⊆ s ∧ (s.card ≤ n ∨ s ⊆ view) := by
  constructor
  · intro hall
    obtain ⟨l, hl⟩ := exists_lists s
    refine ⟨((revise_take_eq_iff hl).mp (hall l hl)).1, or_iff_not_imp_left.mpr fun hlt x hx => ?_⟩
    obtain ⟨l, hl⟩ := exists_lists_concat hx
    refine ((revise_take_eq_iff hl).mp (hall _ hl)).2 x ?_
    have hlength := hl.length_eq
    rw [List.length_append, List.length_singleton] at hlength
    rw [List.drop_append_of_le_length (by omega)]
    exact List.mem_append_right _ List.mem_cons_self
  · rintro ⟨hsub, hfits⟩ l hl
    refine (revise_take_eq_iff hl).mpr ⟨hsub, fun x hx => ?_⟩
    rcases hfits with hle | hsub'
    · rw [List.drop_of_length_le (hl.length_eq.trans_le hle)] at hx
      cases hx
    · exact hsub' (hl.mem_iff.mp (List.mem_of_mem_drop hx))

/-- A cut difference makes one set the other precisely when the difference fits. -/
theorem revise_cut_eq_iff {old new : List α} (hnew : Lists new (t \ s))
    (hold : Lists old (s \ t)) :
    revise s (old.take (n - (new.take n).length)) (new.take n) = t ↔
      (t \ s).card + (s \ t).card ≤ n := by
  constructor
  · intro heq
    have hadded : (t \ s).card ≤ n := by
      refine hnew.forall_mem_take_iff.mp fun x hx => ?_
      obtain ⟨hxt, hxs⟩ := Finset.mem_sdiff.mp hx
      rcases mem_revise.mp (heq ▸ hxt) with ⟨hmem, -⟩ | hmem
      · exact absurd hmem hxs
      · exact hmem
    rw [List.take_of_length_le (hnew.length_eq.trans_le hadded), hnew.length_eq] at heq
    have hdropped : (s \ t).card ≤ n - (t \ s).card := by
      refine hold.forall_mem_take_iff.mp fun x hx => ?_
      obtain ⟨hxs, hxt⟩ := Finset.mem_sdiff.mp hx
      by_contra hkept
      exact hxt (heq ▸ mem_revise.mpr (Or.inl ⟨hxs, hkept⟩))
    omega
  · intro hle
    rw [List.take_of_length_le (hnew.length_eq.trans_le (by omega)), hnew.length_eq,
      List.take_of_length_le (hold.length_eq.trans_le (by omega))]
    ext x
    rw [mem_revise, hnew.mem_iff, hold.mem_iff, Finset.mem_sdiff, Finset.mem_sdiff]
    by_cases hxs : x ∈ s
    · simp [hxs]
    · simp [hxs]

end Bqti.Core
