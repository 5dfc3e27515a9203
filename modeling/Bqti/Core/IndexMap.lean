import Mathlib.Data.List.Basic
import Mathlib.Data.List.Nodup
import Mathlib.Tactic.Common

/-!
# Maps in insertion order

A map that keeps its entries in the order in which their keys were entered, each key once.
Removing shifts the later entries, so that the order of the others stays.
-/

namespace Bqti.Core

/-- Entries with distinct keys, oldest first. -/
structure IndexMap (K V : Type*) where
  entries : List (K × V)
  nodup : (entries.map Prod.fst).Nodup

namespace IndexMap

variable {K V : Type*}

/-- A map without entries. -/
def empty : IndexMap K V := ⟨[], List.nodup_nil⟩

/-- How many entries there are. -/
def len (m : IndexMap K V) : Nat := m.entries.length

/-- Keep the entries that pass a test, in their order. -/
def retain (m : IndexMap K V) (p : K × V → Bool) : IndexMap K V :=
  ⟨m.entries.filter p, (List.filter_sublist.map Prod.fst).nodup m.nodup⟩

/-- Remove the oldest entry. -/
def removeFirst (m : IndexMap K V) : IndexMap K V :=
  ⟨m.entries.tail, ((List.tail_sublist _).map Prod.fst).nodup m.nodup⟩

variable [DecidableEq K]

/-- The value of a key. -/
def get? (m : IndexMap K V) (k : K) : Option V := m.entries.lookup k

/-- Remove the entry of a key. -/
def shiftRemove (m : IndexMap K V) (k : K) : IndexMap K V := m.retain fun e => e.1 ≠ k

/-- Put a new key at the end; the value of a key that is there is replaced in its place. -/
def insert (m : IndexMap K V) (k : K) (v : V) : IndexMap K V :=
  if h : k ∈ m.entries.map Prod.fst then
    ⟨m.entries.map fun e => if e.1 = k then (k, v) else e, by
      have hkeys : (m.entries.map fun e => if e.1 = k then (k, v) else e).map Prod.fst =
          m.entries.map Prod.fst := by
        rw [List.map_map]
        refine List.map_congr_left fun e _ => ?_
        by_cases he : e.1 = k <;> simp [he]
      rw [hkeys]
      exact m.nodup⟩
  else
    ⟨m.entries ++ [(k, v)], by
      rw [List.map_append, List.map_singleton]
      exact List.nodup_append'.mpr ⟨m.nodup, List.nodup_singleton k, by simpa using h⟩⟩

variable {m : IndexMap K V} {k : K} {v : V}

/-- A new key is inserted behind the others. -/
theorem entries_insert (h : k ∉ m.entries.map Prod.fst) :
    (m.insert k v).entries = m.entries ++ [(k, v)] := by
  rw [insert, dif_neg h]

/-- The value of a key is that of its only entry. -/
theorem get?_eq_some_iff : m.get? k = some v ↔ (k, v) ∈ m.entries := by
  obtain ⟨entries, hnodup⟩ := m
  simp only [get?]
  induction entries with
  | nil => simp
  | cons e entries ih =>
    obtain ⟨k', v'⟩ := e
    rw [List.map_cons, List.nodup_cons] at hnodup
    rw [List.lookup_cons, List.mem_cons, Prod.mk.injEq]
    by_cases hk : k = k'
    · subst hk
      have habsent : (k, v) ∉ entries := fun h => hnodup.1 (List.mem_map.mpr ⟨_, h, rfl⟩)
      simp [habsent, eq_comm]
    · have hbeq : (k == k') = false := beq_false_of_ne hk
      simp [hbeq, hk, ih hnodup.2]

/-- A key that is not there has no value. -/
theorem get?_eq_none_iff : m.get? k = none ↔ k ∉ m.entries.map Prod.fst := by
  constructor
  · intro hnone hk
    obtain ⟨⟨k', v⟩, he, rfl⟩ := List.mem_map.mp hk
    rw [get?_eq_some_iff.mpr he] at hnone
    contradiction
  · intro hk
    cases hv : m.get? k with
    | none => rfl
    | some v => exact absurd (List.mem_map_of_mem (get?_eq_some_iff.mp hv)) hk

/-- After its removal a key is put at the end. -/
theorem entries_insert_shiftRemove :
    ((m.shiftRemove k).insert k v).entries = m.entries.filter (fun e => e.1 ≠ k) ++ [(k, v)] := by
  refine entries_insert fun hk => ?_
  obtain ⟨e, he, rfl⟩ := List.mem_map.mp hk
  exact absurd rfl (of_decide_eq_true (List.mem_filter.mp he).2)

end IndexMap

end Bqti.Core
