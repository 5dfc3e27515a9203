import Mathlib.Order.WellFounded
import Mathlib.Tactic.Common

/-!
# Searching for a number

A loop that tries the 32-bit numbers one after another, from a first one on, until its body
leaves it. It wraps around after the last number, so it need not end; the fuel bounds how many
numbers are tried.
-/

namespace Bqti.Core

variable {α : Type*}

/-- Try numbers until the body leaves the loop with a result. -/
def search (body : UInt32 → Option α) : Nat → UInt32 → Option α
  | 0, _ => none
  | fuel + 1, n =>
      match body n with
      | some a => some a
      | none => search body fuel (n + 1)

/-- A number below another one can be increased. -/
theorem toNat_succ_of_lt {m n : UInt32} (h : m < n) : (m + 1).toNat = m.toNat + 1 := by
  have hlt := UInt32.lt_iff_toNat_lt.mp h
  have hn := n.toNat_lt
  rw [UInt32.toNat_add]
  exact Nat.mod_eq_of_lt (by simpa using by omega)

/-- The loop is left at the first number at which its body leaves it. -/
theorem search_eq_some {body : UInt32 → Option α} {n : UInt32} {a : α} (hn : body n = some a)
    (hbefore : ∀ m < n, body m = none) {fuel : Nat} {m : UInt32} (hm : m ≤ n)
    (hfuel : n.toNat < m.toNat + fuel) : search body fuel m = some a := by
  induction fuel generalizing m with
  | zero =>
    have := UInt32.le_iff_toNat_le.mp hm
    omega
  | succ fuel ih =>
    rw [search]
    by_cases heq : m = n
    · rw [heq, hn]
    · have hlt : m < n := UInt32.lt_of_le_of_ne hm heq
      have hsucc := toNat_succ_of_lt hlt
      rw [hbefore m hlt]
      refine ih (UInt32.le_iff_toNat_le.mpr ?_) (by omega)
      have := UInt32.lt_iff_toNat_lt.mp hlt
      omega

/-- More fuel changes no result. -/
theorem search_mono {body : UInt32 → Option α} {fuel fuel' : Nat} {n : UInt32} {a : α}
    (h : search body fuel n = some a) (hle : fuel ≤ fuel') : search body fuel' n = some a := by
  induction fuel generalizing n fuel' with
  | zero => cases h
  | succ fuel ih =>
    obtain ⟨fuel', rfl⟩ : ∃ k, fuel' = k + 1 := ⟨fuel' - 1, by omega⟩
    rw [search] at h ⊢
    cases hbody : body n with
    | none =>
      rw [hbody] at h
      exact ih h (Nat.le_of_succ_le_succ hle)
    | some b =>
      rw [hbody] at h
      exact h

/-- A loop is left by its body. -/
theorem exists_of_search {body : UInt32 → Option α} {fuel : Nat} {n : UInt32} {a : α}
    (h : search body fuel n = some a) : ∃ m, body m = some a := by
  induction fuel generalizing n with
  | zero => cases h
  | succ fuel ih =>
    rw [search] at h
    cases hbody : body n with
    | none =>
      rw [hbody] at h
      exact ih h
    | some b =>
      rw [hbody] at h
      exact ⟨n, hbody.trans h⟩

/-- Where some number has a property, there is a least one. -/
theorem exists_least {p : UInt32 → Prop} (h : ∃ n, p n) : ∃ n, p n ∧ ∀ m < n, ¬ p m := by
  obtain ⟨n, hn, hmin⟩ := WellFounded.has_min (measure UInt32.toNat).wf {n | p n} h
  exact ⟨n, hn, fun m hm hp => hmin m hp (UInt32.lt_iff_toNat_lt.mp hm)⟩

end Bqti.Core
