import Mathlib.Tactic.Common
import Bqti.Core.Bencode

/-!
# Bencoded values that were cut off

Every bencoded value says itself where it ends, so that what is read from the beginning of a
byte string is read from the whole as well, and a beginning of an encoding is no encoding.
-/

namespace Bqti.Core.Bencode

/-- Digits that ended before something else end there with more input too. -/
theorem readDigits_append {acc n : Nat} {input rest : Bytes}
    (h : readDigits acc input = (n, rest)) (hrest : rest ≠ []) (more : Bytes) :
    readDigits acc (input ++ more) = (n, rest ++ more) := by
  induction input generalizing acc with
  | nil =>
    rw [readDigits, Prod.mk.injEq] at h
    exact absurd h.2.symm hrest
  | cons b input ih =>
    rw [readDigits] at h
    rw [List.cons_append, readDigits]
    split
    · rename_i hb
      rw [if_pos hb] at h
      exact ih h
    · rename_i hb
      rw [if_neg hb, Prod.mk.injEq] at h
      rw [h.1, ← h.2, List.cons_append]

/-- A number that ended before something else ends there with more input too. -/
theorem parseNat_append {n : Nat} {input rest : Bytes} (h : parseNat input = some (n, rest))
    (hrest : rest ≠ []) (more : Bytes) : parseNat (input ++ more) = some (n, rest ++ more) := by
  cases input with
  | nil => contradiction
  | cons b input =>
    rw [parseNat] at h
    rw [List.cons_append, parseNat]
    split at h
    · rename_i hb
      rw [if_pos hb, ← List.cons_append, readDigits_append (Option.some.inj h) hrest]
    · contradiction

/-- An integer that was read is read with more input too. -/
theorem parseInt_append {n : Int} {input rest : Bytes} (h : parseInt input = some (n, rest))
    (more : Bytes) : parseInt (input ++ more) = some (n, rest ++ more) := by
  cases input with
  | nil => simp [parseInt, parseNat] at h
  | cons b input =>
    simp only [parseInt, List.head?_cons, List.tail_cons, Option.some.injEq] at h
    simp only [parseInt, List.cons_append, List.head?_cons, List.tail_cons, Option.some.injEq]
    split at h
    · rename_i m tail hnat
      have hlonger := parseNat_append hnat (List.cons_ne_nil 101 tail) more
      have hinput : (if b = 45 then input ++ more else b :: (input ++ more)) =
          (if b = 45 then input else b :: input) ++ more := by
        split <;> rfl
      rw [hinput, hlonger]
      simp only [List.cons_append]
      generalize (if b = 45 then -(m : Int) else m) = value at h ⊢
      split at h
      · rename_i hfits
        simp only [Option.some.injEq, Prod.mk.injEq] at h
        rw [if_pos hfits, h.1, h.2]
      · contradiction
    · contradiction

/-- A byte string that was read is read with more input too. -/
theorem parseBytes_append {b input rest : Bytes} (h : parseBytes input = some (b, rest))
    (more : Bytes) : parseBytes (input ++ more) = some (b, rest ++ more) := by
  rw [parseBytes] at h
  split at h
  · rename_i n tail hnat
    split at h
    · rename_i hn
      simp only [Option.some.injEq, Prod.mk.injEq] at h
      have hlonger := parseNat_append hnat (List.cons_ne_nil 58 tail) more
      have hlength : n ≤ (tail ++ more).length := by
        rw [List.length_append]
        omega
      rw [parseBytes, hlonger, List.cons_append]
      simp only [if_pos hlength]
      rw [List.take_append_of_le_length hn, List.drop_append_of_le_length hn, h.1,
        h.2]
    · contradiction
  · contradiction

/-- What the readers with this fuel take, readers with more fuel take from a longer input. -/
def Extends (fuel : Nat) : Prop :=
  (∀ input v rest, parseValue fuel input = some (v, rest) →
    ∀ fuel' ≥ fuel, ∀ more, parseValue fuel' (input ++ more) = some (v, rest ++ more)) ∧
  (∀ input items rest, parseItems fuel input = some (items, rest) →
    ∀ fuel' ≥ fuel, ∀ more, parseItems fuel' (input ++ more) = some (items, rest ++ more)) ∧
  ∀ input entries rest, parseEntries fuel input = some (entries, rest) →
    ∀ fuel' ≥ fuel, ∀ more, parseEntries fuel' (input ++ more) = some (entries, rest ++ more)

/-- A value that was read is read with more input too, if its parts are. -/
theorem parseValue_extends {fuel : Nat} (ih : Extends fuel) {input rest : Bytes} {v : Value}
    (h : parseValue (fuel + 1) input = some (v, rest)) {fuel' : Nat} (hfuel : fuel ≤ fuel')
    (more : Bytes) : parseValue (fuel' + 1) (input ++ more) = some (v, rest ++ more) := by
  cases input with
  | nil => contradiction
  | cons b input =>
    rw [parseValue] at h
    rw [List.cons_append, parseValue]
    by_cases hint : b = 105
    · rw [if_pos hint] at h ⊢
      obtain ⟨out, hout, h⟩ := Option.map_eq_some_iff.mp h
      rw [Prod.mk.injEq] at h
      rw [parseInt_append hout, Option.map_some, h.1, h.2]
    rw [if_neg hint] at h ⊢
    by_cases hlist : b = 108
    · rw [if_pos hlist] at h ⊢
      obtain ⟨out, hout, h⟩ := Option.map_eq_some_iff.mp h
      rw [Prod.mk.injEq] at h
      rw [ih.2.1 _ _ _ hout fuel' hfuel more, Option.map_some, h.1, h.2]
    rw [if_neg hlist] at h ⊢
    by_cases hdict : b = 100
    · rw [if_pos hdict] at h ⊢
      obtain ⟨out, hout, h⟩ := Option.map_eq_some_iff.mp h
      rw [Prod.mk.injEq] at h
      rw [ih.2.2 _ _ _ hout fuel' hfuel more, Option.map_some, h.1, h.2]
    rw [if_neg hdict] at h ⊢
    obtain ⟨out, hout, h⟩ := Option.map_eq_some_iff.mp h
    rw [Prod.mk.injEq] at h
    rw [← List.cons_append, parseBytes_append hout, Option.map_some, h.1, h.2]

/-- An end that is there is the end of a longer input too. -/
theorem head?_append_of_some {input : Bytes} {b : UInt8} (h : input.head? = some b) (more : Bytes) :
    (input ++ more).head? = some b ∧ (input ++ more).tail = input.tail ++ more := by
  cases input with
  | nil => contradiction
  | cons c input => exact ⟨h, rfl⟩

/-- Items that were read are read with more input too, if values are. -/
theorem parseItems_extends {fuel : Nat} (ih : Extends fuel) {input rest : Bytes}
    {items : List Value} (h : parseItems (fuel + 1) input = some (items, rest)) {fuel' : Nat}
    (hfuel : fuel ≤ fuel') (more : Bytes) :
    parseItems (fuel' + 1) (input ++ more) = some (items, rest ++ more) := by
  rw [parseItems] at h ⊢
  by_cases hend : input.head? = some 101
  · obtain ⟨hhead, htail⟩ := head?_append_of_some hend more
    rw [if_pos hend, Option.some.injEq, Prod.mk.injEq] at h
    rw [if_pos hhead, htail, h.1, h.2]
  · rw [if_neg hend] at h
    obtain ⟨first, hfirst, h⟩ := Option.bind_eq_some_iff.mp h
    obtain ⟨out, hout, h⟩ := Option.map_eq_some_iff.mp h
    rw [Prod.mk.injEq] at h
    have hne : input ≠ [] := by
      rintro rfl
      cases fuel <;> contradiction
    rw [List.head?_append_of_ne_nil _ hne, if_neg hend, ih.1 _ _ _ hfirst fuel' hfuel more,
      Option.bind_some, ih.2.1 _ _ _ hout fuel' hfuel more, Option.map_some, h.1, h.2]

/-- Entries that were read are read with more input too, if values are. -/
theorem parseEntries_extends {fuel : Nat} (ih : Extends fuel) {input rest : Bytes}
    {entries : List (Bytes × Value)} (h : parseEntries (fuel + 1) input = some (entries, rest))
    {fuel' : Nat} (hfuel : fuel ≤ fuel') (more : Bytes) :
    parseEntries (fuel' + 1) (input ++ more) = some (entries, rest ++ more) := by
  rw [parseEntries] at h ⊢
  by_cases hend : input.head? = some 101
  · obtain ⟨hhead, htail⟩ := head?_append_of_some hend more
    rw [if_pos hend, Option.some.injEq, Prod.mk.injEq] at h
    rw [if_pos hhead, htail, h.1, h.2]
  · rw [if_neg hend] at h
    obtain ⟨key, hkey, h⟩ := Option.bind_eq_some_iff.mp h
    obtain ⟨first, hfirst, h⟩ := Option.bind_eq_some_iff.mp h
    obtain ⟨out, hout, h⟩ := Option.map_eq_some_iff.mp h
    rw [Prod.mk.injEq] at h
    have hne : input ≠ [] := by
      rintro rfl
      contradiction
    rw [List.head?_append_of_ne_nil _ hne, if_neg hend, parseBytes_append hkey, Option.bind_some,
      ih.1 _ _ _ hfirst fuel' hfuel more, Option.bind_some, ih.2.2 _ _ _ hout fuel' hfuel more,
      Option.map_some, h.1, h.2]

/-- By induction on the fuel, more input changes nothing that was read. -/
theorem extends_all (fuel : Nat) : Extends fuel := by
  induction fuel with
  | zero =>
    refine ⟨?_, ?_, ?_⟩
    · intro input v rest h
      simp [parseValue] at h
    · intro input items rest h
      simp [parseItems] at h
    · intro input entries rest h
      simp [parseEntries] at h
  | succ fuel ih =>
    have hsucc : ∀ fuel' ≥ fuel + 1, ∃ f, fuel' = f + 1 ∧ fuel ≤ f := fun fuel' hle =>
      ⟨fuel' - 1, by omega, by omega⟩
    refine ⟨?_, ?_, ?_⟩
    · intro input v rest h fuel' hle more
      obtain ⟨f, rfl, hf⟩ := hsucc fuel' hle
      exact parseValue_extends ih h hf more
    · intro input items rest h fuel' hle more
      obtain ⟨f, rfl, hf⟩ := hsucc fuel' hle
      exact parseItems_extends ih h hf more
    · intro input entries rest h fuel' hle more
      obtain ⟨f, rfl, hf⟩ := hsucc fuel' hle
      exact parseEntries_extends ih h hf more

/-- The beginning of an encoding is no encoding. -/
theorem parse_eq_none_of_cut {v : Value} (hv : v.Canonical) {part rest : Bytes}
    (h : encode v = part ++ rest) (hne : rest ≠ []) : parse part = none := by
  by_contra hsome
  obtain ⟨w, hw⟩ := Option.ne_none_iff_exists'.mp hsome
  obtain ⟨⟨w', tail⟩, hread, -⟩ := Option.map_eq_some_iff.mp hw
  have hlonger := (extends_all _).1 _ _ _ hread (encode v).length
    (by rw [h, List.length_append]; omega) rest
  have hwhole := parseValue_encode v hv (encode v).length le_rfl []
  rw [← h] at hlonger
  rw [List.append_nil, hlonger, Option.some.injEq, Prod.mk.injEq] at hwhole
  exact hne (List.append_eq_nil_iff.mp hwhole.2).2

end Bqti.Core.Bencode
