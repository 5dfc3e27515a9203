import Mathlib.Data.List.Basic
import Bqti.Core.Word

/-!
# Prefix-free renderings

A rendering is prefix-free when no rendered value continues another one. Renderings of a fixed
width are; so is the framing of lists of byte strings below, which is defined on infinitely many
values and can therefore stand for a hash without collisions.
-/

namespace Bqti.Core

/-- No rendered value is a proper beginning of another, and equal renderings have equal values. -/
def PrefixFree {α : Type*} (render : α → Bytes) : Prop :=
  ∀ a b rest, render a ++ rest = render b → a = b ∧ rest = []

/-- A prefix-free rendering is injective. -/
theorem PrefixFree.injective {α : Type*} {render : α → Bytes} (h : PrefixFree render) :
    Function.Injective render := by
  intro a b hab
  exact (h a b [] (by rw [List.append_nil, hab])).1

/-- Nothing can be appended to a rendered value to get another one. -/
theorem PrefixFree.append_ne {α : Type*} {render : α → Bytes} (h : PrefixFree render) {a b : α}
    {rest : Bytes} (hrest : rest ≠ []) : render a ++ rest ≠ render b :=
  fun he => hrest (h a b rest he).2

/-- A fixed beginning does no harm. -/
theorem PrefixFree.append_left {α : Type*} {render : α → Bytes} (h : PrefixFree render)
    (start : Bytes) : PrefixFree fun a => start ++ render a := by
  intro a b rest he
  rw [List.append_assoc] at he
  exact h a b rest (List.append_cancel_left he)

/-- Mark every byte of a string and its end, and go on. -/
def frameString : Bytes → Bytes → Bytes
  | [], next => 2 :: next
  | b :: bytes, next => 1 :: b :: frameString bytes next

/-- Frame the strings of a list one after the other and mark the end. -/
def frame : List Bytes → Bytes
  | [] => [0]
  | bytes :: rest => frameString bytes (frame rest)

/-- What follows a framed string is appended behind it. -/
theorem frameString_append (bytes next rest : Bytes) :
    frameString bytes next ++ rest = frameString bytes (next ++ rest) := by
  induction bytes with
  | nil => rfl
  | cons b bytes ih => simp only [frameString, List.cons_append, ih]

/-- A framed string is read back with what follows it. -/
theorem frameString_inj {bytes bytes' next next' : Bytes}
    (h : frameString bytes next = frameString bytes' next') : bytes = bytes' ∧ next = next' := by
  induction bytes generalizing bytes' with
  | nil =>
    cases bytes' with
    | nil => exact ⟨rfl, List.tail_eq_of_cons_eq h⟩
    | cons b' bytes' => exact absurd (List.head_eq_of_cons_eq h) (by decide)
  | cons b bytes ih =>
    cases bytes' with
    | nil => exact absurd (List.head_eq_of_cons_eq h) (by decide)
    | cons b' bytes' =>
      have htail := List.tail_eq_of_cons_eq h
      obtain ⟨hbytes, hnext⟩ := ih (List.tail_eq_of_cons_eq htail)
      exact ⟨by rw [List.head_eq_of_cons_eq htail, hbytes], hnext⟩

/-- A framed string never starts like the end of a list. -/
theorem frameString_ne_end (bytes next rest : Bytes) : frameString bytes next ≠ 0 :: rest := by
  cases bytes with
  | nil => exact fun h => absurd (List.head_eq_of_cons_eq h) (by decide)
  | cons b bytes => exact fun h => absurd (List.head_eq_of_cons_eq h) (by decide)

/-- The framing of lists is prefix-free. -/
theorem prefixFree_frame : PrefixFree frame := by
  intro strings
  induction strings with
  | nil =>
    intro strings' rest h
    cases strings' with
    | nil => exact ⟨rfl, List.tail_eq_of_cons_eq h⟩
    | cons bytes' strings' => exact absurd h.symm (frameString_ne_end bytes' _ _)
  | cons bytes strings ih =>
    intro strings' rest h
    cases strings' with
    | nil =>
      simp only [frame, frameString_append] at h
      exact absurd h (frameString_ne_end bytes _ _)
    | cons bytes' strings' =>
      simp only [frame, frameString_append] at h
      obtain ⟨hbytes, hrest⟩ := frameString_inj h
      obtain ⟨hstrings, hnil⟩ := ih strings' rest hrest
      exact ⟨by rw [hbytes, hstrings], hnil⟩

end Bqti.Core
