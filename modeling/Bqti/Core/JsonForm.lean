import Mathlib.Data.List.TakeWhile
import Mathlib.Tactic.Common
import Bqti.Core.Json
import Bqti.Core.Keyed

/-!
# Records and variants as JSON

A form writes the values of a type as JSON and reads them back. Records are objects with a
field for every component; they can also be read from an array of their components. A variant
stands beside its content, as the only key of an object or under keys of its own. Fields that
are not known are passed over, and a field must not be there twice.
-/

namespace Bqti.Core.Json

/-- How the values of a type are written and read. -/
structure Form (α : Type) where
  write : α → Value
  read : Value → Option α

/-- What is written is well formed and read back. -/
structure Form.Lawful {α : Type} (form : Form α) : Prop where
  wellFormed : ∀ a, (form.write a).WellFormed
  read_write : ∀ a, form.read (form.write a) = some a

/-! ## Plain values -/

/-- A string. -/
def string : Form String where
  write s := .string s.toList
  read
    | .string s => some (String.ofList s)
    | _ => none

/-- Texts are read back. -/
theorem string_lawful : string.Lawful where
  wellFormed _ := trivial
  read_write _ := congrArg some String.ofList_toList

/-- A truth value. -/
def bool : Form Bool where
  write := .bool
  read
    | .bool b => some b
    | _ => none

/-- Truth values are read back. -/
theorem bool_lawful : bool.Lawful where
  wellFormed _ := trivial
  read_write _ := rfl

/-- A number without a sign. -/
def ofNat (n : Nat) : Value := .number (Nat.toDigits 10 n)

/-- A number without a sign, a fraction or an exponent, below a bound. -/
def toNat (bound : Nat) : Value → Option Nat
  | .number text =>
      if text.all Char.isDigit = true ∧ Nat.ofDigitChars 10 text 0 < bound then
        some (Nat.ofDigitChars 10 text 0)
      else none
  | _ => none

/-- A decimal numeral has digits only. -/
theorem isDigit_of_mem_toDigits {n : Nat} {c : Char} (h : c ∈ Nat.toDigits 10 n) :
    c.isDigit = true :=
  Nat.isDigit_of_mem_toDigits (by decide) (by decide) h

/-- Only zero starts with the digit zero. -/
theorem head?_toDigits {n : Nat} (h : n ≠ 0) : (Nat.toDigits 10 n).head? ≠ some '0' := by
  have hdigit : ∀ d < 10, d ≠ 0 → Nat.digitChar d ≠ '0' := by decide
  induction n using Nat.strongRecOn with
  | ind n ih =>
    rw [Nat.toDigits_eq_if (by decide)]
    split
    · rename_i hlt
      simpa using hdigit n hlt h
    · rename_i hge
      rw [List.head?_append_of_ne_nil _ Nat.toDigits_ne_nil]
      exact ih (n / 10) (by omega) (by omega)

/-- A decimal numeral is a number. -/
theorem isNumber_toDigits (n : Nat) : isNumber (Nat.toDigits 10 n) = true := by
  by_cases hzero : n = 0
  · subst hzero
    rfl
  · have hhead := head?_toDigits hzero
    have hdigits : ∀ c ∈ Nat.toDigits 10 n, c.isDigit = true := fun c => isDigit_of_mem_toDigits
    cases htext : Nat.toDigits 10 n with
    | nil => exact absurd htext Nat.toDigits_ne_nil
    | cons c rest =>
      rw [htext] at hhead hdigits
      have hc := hdigits c List.mem_cons_self
      have hminus : c ≠ '-' := by
        rintro rfl
        exact absurd hc (by decide)
      have hnonzero : c ≠ '0' := fun heq => hhead (by rw [heq]; rfl)
      have hrest : rest.dropWhile Char.isDigit = [] :=
        List.dropWhile_eq_nil_iff.mpr fun d hd => hdigits d (List.mem_cons_of_mem c hd)
      have hinteger : dropInteger (c :: rest) = some [] := by
        unfold dropInteger
        split <;> simp_all [dropDigits]
      rw [isNumber, hinteger]
      rfl

/-- A natural number is a well formed value. -/
theorem wellFormed_ofNat (n : Nat) : (ofNat n).WellFormed := by
  refine ⟨fun c hc => ?_, isNumber_toDigits n⟩
  rw [isNumberChar, isDigit_of_mem_toDigits hc]
  rfl

/-- A natural number below the bound is read back. -/
theorem toNat_ofNat {n bound : Nat} (h : n < bound) : toNat bound (ofNat n) = some n := by
  have hall : (Nat.toDigits 10 n).all Char.isDigit = true :=
    List.all_eq_true.mpr fun c => isDigit_of_mem_toDigits
  rw [ofNat, toNat, Nat.ofDigitChars_ten_toDigits, if_pos ⟨hall, h⟩]

/-- A word of 32 bits. -/
def word32 : Form UInt32 where
  write n := ofNat n.toNat
  read v := (toNat UInt32.size v).map UInt32.ofNat

/-- Numbers of 32 bits are read back. -/
theorem word32_lawful : word32.Lawful where
  wellFormed n := wellFormed_ofNat n.toNat
  read_write n := by
    have hread : toNat UInt32.size (ofNat n.toNat) = some n.toNat := toNat_ofNat n.toNat_lt
    unfold word32
    dsimp only
    rw [hread, Option.map_some, UInt32.ofNat_toNat]

/-- A word of 64 bits. -/
def word64 : Form UInt64 where
  write n := ofNat n.toNat
  read v := (toNat UInt64.size v).map UInt64.ofNat

/-- Numbers of 64 bits are read back. -/
theorem word64_lawful : word64.Lawful where
  wellFormed n := wellFormed_ofNat n.toNat
  read_write n := by
    have hread : toNat UInt64.size (ofNat n.toNat) = some n.toNat := toNat_ofNat n.toNat_lt
    unfold word64
    dsimp only
    rw [hread, Option.map_some, UInt64.ofNat_toNat]

/-! ## Options and lists -/

variable {α : Type}

/-- Nothing is written as `null`. -/
def option (form : Form α) : Form (Option α) where
  write
    | none => .null
    | some a => form.write a
  read
    | .null => some none
    | v => (form.read v).map some

/-- An option is read back when its values are not written as `null`. -/
theorem option_lawful {form : Form α} (h : form.Lawful) (hnull : ∀ a, form.write a ≠ .null) :
    (option form).Lawful where
  wellFormed
    | none => trivial
    | some a => h.wellFormed a
  read_write
    | none => rfl
    | some a => by
      have hread := h.read_write a
      have hne := hnull a
      unfold option
      dsimp only
      split
      · rename_i heq
        exact absurd heq hne
      · rw [hread, Option.map_some]

/-- A list is an array. -/
def list (form : Form α) : Form (List α) where
  write items := .array (items.map form.write)
  read
    | .array items => items.mapM form.read
    | _ => none

/-- Items that a lawful form writes are well formed. -/
theorem wellFormedItems_map {form : Form α} (h : form.Lawful) (items : List α) :
    WellFormedItems (items.map form.write) := by
  induction items with
  | nil => trivial
  | cons a items ih => exact ⟨h.wellFormed a, ih⟩

/-- Lists are read back if their items are. -/
theorem list_lawful {form : Form α} (h : form.Lawful) : (list form).Lawful where
  wellFormed items := wellFormedItems_map h items
  read_write items := by
    unfold list
    dsimp only
    induction items with
    | nil => rfl
    | cons a items ih =>
      rw [List.map_cons, List.mapM_cons, h.read_write a, ih]
      rfl

/-! ## Records -/

/-- The value of a field, if it is there; a field that is there twice is an error. -/
def field (name : String) (entries : List (List Char × Value)) : Option (Option Value) :=
  match records Prod.fst name.toList entries with
  | [] => some none
  | [entry] => some (some entry.2)
  | _ => none

/-- The values of the fields of an object. -/
def objectFields (names : List String) : Value → Option (List (Option Value))
  | .object entries => names.mapM fun name => field name entries
  | _ => none

/-- The values of the fields of a record, by name or by position. -/
def recordFields (names : List String) : Value → Option (List (Option Value))
  | .array items => if items.length = names.length then some (items.map some) else none
  | v => objectFields names v

/-- Write a record with these fields. -/
def record (names : List String) (values : List Value) : Value :=
  .object ((names.zip values).map fun entry => (entry.1.toList, entry.2))

/-- A field that has to be there. -/
def requiredField (form : Form α) (v : Option Value) : Option α := v.bind form.read

/-- A field that may be left out. -/
def optionalField (form : Form α) : Option Value → Option (Option α)
  | none => some none
  | some v => (option form).read v

/-- A field that has to be there is read back. -/
theorem requiredField_some {form : Form α} (h : form.Lawful) (a : α) :
    requiredField form (some (form.write a)) = some a := h.read_write a

/-- A field that may be missing is read back. -/
theorem optionalField_some {form : Form α} (h : (option form).Lawful) (a : Option α) :
    optionalField form (some ((option form).write a)) = some a := h.read_write a

/-- A record of well formed values is well formed. -/
theorem wellFormed_record {names : List String} {values : List Value}
    (h : ∀ v ∈ values, v.WellFormed) : (record names values).WellFormed := by
  rw [record]
  induction names generalizing values with
  | nil => trivial
  | cons name names ih =>
    cases values with
    | nil => trivial
    | cons v values =>
      rw [List.forall_mem_cons] at h
      exact ⟨h.1, ih h.2⟩

/-- A field of a record whose names differ. -/
theorem field_record {fields : List (String × Value)} (hnodup : (fields.map Prod.fst).Nodup)
    {entry : String × Value} (hmem : entry ∈ fields) :
    field entry.1 (fields.map fun e => (e.1.toList, e.2)) = some (some entry.2) := by
  have hkeys : ((fields.map fun e => (e.1.toList, e.2)).map Prod.fst).Nodup := by
    have hinj : Function.Injective String.toList := fun _ _ => String.toList_inj.mp
    rw [List.map_map, show (Prod.fst ∘ fun e : String × Value => (e.1.toList, e.2)) =
      String.toList ∘ Prod.fst from rfl, ← List.map_map]
    exact hnodup.map hinj
  have hentry : (entry.1.toList, entry.2) ∈ fields.map fun e => (e.1.toList, e.2) :=
    List.mem_map.mpr ⟨entry, hmem, rfl⟩
  rw [field, records_eq_singleton hkeys hentry]

/-- A record gives back all its fields. -/
theorem objectFields_record {names : List String} {values : List Value} (hnodup : names.Nodup)
    (hlength : names.length = values.length) :
    objectFields names (record names values) = some (values.map some) := by
  have hnames : (names.zip values).map Prod.fst = names := List.map_fst_zip hlength.le
  have hvalues : (names.zip values).map Prod.snd = values := List.map_snd_zip hlength.ge
  have hread : ∀ part ⊆ names.zip values, (part.map Prod.fst).mapM
      (fun name => field name ((names.zip values).map fun e => (e.1.toList, e.2))) =
        some ((part.map Prod.snd).map some) := by
    intro part hsub
    induction part with
    | nil => rfl
    | cons entry others ih =>
      rw [List.map_cons, List.mapM_cons,
        field_record (by rwa [hnames]) (hsub List.mem_cons_self),
        ih fun e he => hsub (List.mem_cons_of_mem entry he)]
      rfl
  have hall := hread _ (List.Subset.refl _)
  rwa [hnames, hvalues] at hall

/-- The fields of a record with different names are found. -/
theorem recordFields_record {names : List String} {values : List Value} (hnodup : names.Nodup)
    (hlength : names.length = values.length) :
    recordFields names (record names values) = some (values.map some) :=
  objectFields_record hnodup hlength

/-! ## Variants -/

/-- A variant as the only key of an object; one without content is its name alone. -/
def external (name : String) : Option Value → Value
  | none => .string name.toList
  | some content => record [name] [content]

/-- The name and the content of a variant that is the only key of an object. -/
def externalTag : Value → Option (String × Option Value)
  | .string name => some (String.ofList name, none)
  | .object [(name, content)] => some (String.ofList name, some content)
  | _ => none

/-- A variant is found by its name. -/
theorem externalTag_external (name : String) (content : Option Value) :
    externalTag (external name content) = some (name, content) := by
  cases content <;>
    simp only [external, record, externalTag, List.zip_cons_cons, List.zip_nil_left, List.map_cons,
      List.map_nil, String.ofList_toList]

/-- A variant without content is well formed. -/
theorem wellFormed_external_none (name : String) : (external name none).WellFormed := trivial

/-- A variant with well formed content is well formed. -/
theorem wellFormed_external_some (name : String) {v : Value} (h : v.WellFormed) :
    (external name (some v)).WellFormed := ⟨h, trivial⟩

/-- A variant under the keys `type` and `payload`. -/
def adjacent (tag content : String) (name : String) : Option Value → Value
  | none => record [tag] [string.write name]
  | some v => record [tag, content] [string.write name, v]

/-- The name and the content of a variant under two keys of its own. -/
def adjacentTag (tag content : String) (v : Value) : Option (String × Option Value) :=
  match recordFields [tag, content] v with
  | some [name, v] => (requiredField string name).map fun name => (name, v)
  | _ => none

/-- A variant beside its content is found by its name. -/
theorem adjacentTag_adjacent {tag content : String} (h : tag ≠ content) (name : String)
    (v : Option Value) :
    adjacentTag tag content (adjacent tag content name v) = some (name, v) := by
  cases v with
  | none =>
    have hne : tag.toList ≠ content.toList := fun heq => h (String.toList_inj.mp heq)
    have hfields : recordFields [tag, content] (adjacent tag content name none) =
        some [some (string.write name), none] := by
      simp [recordFields, objectFields, adjacent, record, field, records, hne]
    rw [adjacentTag, hfields]
    simp only [requiredField, Option.bind_some, string_lawful.read_write, Option.map_some]
  | some v =>
    rw [adjacentTag, adjacent, recordFields_record (by simpa using h) rfl]
    simp only [List.map_cons, List.map_nil, requiredField, Option.bind_some,
      string_lawful.read_write, Option.map_some]

/-- A variant without content beside it is well formed. -/
theorem wellFormed_adjacent_none (tag content name : String) :
    (adjacent tag content name none).WellFormed := ⟨trivial, trivial⟩

/-- A variant beside well formed content is well formed. -/
theorem wellFormed_adjacent_some (tag content name : String) {v : Value} (h : v.WellFormed) :
    (adjacent tag content name (some v)).WellFormed := ⟨trivial, h, trivial⟩

end Bqti.Core.Json
