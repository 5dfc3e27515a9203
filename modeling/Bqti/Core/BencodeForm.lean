import Mathlib.Data.Finset.Dedup
import Mathlib.Tactic.Common
import Bqti.Core.Bencode
import Bqti.Core.Keyed
import Bqti.Core.Lines

/-!
# Records and variants as bencoded values

A form writes the values of a type as bencoded values and reads them back. Bencoding has
integers of 64 bits with a sign and byte strings only, so that a form is lawful on a domain of
values. Records are dictionaries; a field without a value is left out, fields that are not known
are passed over, and a field must not be there twice. A variant is its name alone, or the only
key of a dictionary.
-/

namespace Bqti.Core.Bencode

variable {α β : Type}

/-- How the values of a type are written and read. -/
structure Form (α : Type) where
  write : α → Value
  read : Value → Option α

/-- What is written for the values of a domain is canonical and read back. -/
structure Form.Lawful (form : Form α) (domain : α → Prop) : Prop where
  canonical : ∀ a, domain a → (form.write a).Canonical
  read_write : ∀ a, domain a → form.read (form.write a) = some a

namespace Form

/-- The bytes of a value. -/
def toBytes (form : Form α) (a : α) : Bytes := encode (form.write a)

/-- The value of some bytes. -/
def ofBytes (form : Form α) (bytes : Bytes) : Option α := (parse bytes).bind form.read

/-- What is written canonically is read as the value that was written. -/
theorem ofBytes_toBytes_eq {form : Form α} {a : α} (h : (form.write a).Canonical) :
    form.ofBytes (form.toBytes a) = form.read (form.write a) := by
  rw [ofBytes, toBytes, parse_encode h, Option.bind_some]

/-- What a lawful form writes it reads back. -/
theorem ofBytes_toBytes {form : Form α} {domain : α → Prop} (h : form.Lawful domain) {a : α}
    (ha : domain a) : form.ofBytes (form.toBytes a) = some a := by
  rw [ofBytes_toBytes_eq (h.canonical a ha), h.read_write a ha]

/-! ## Plain values -/

/-- A number without a sign, below a bound. -/
def natural (bound : Nat) : Value → Option Nat
  | .int (.ofNat n) => if n < bound then some n else none
  | _ => none

/-- A number below the bound is read. -/
theorem natural_int {n bound : Nat} (h : n < bound) : natural bound (.int n) = some n := if_pos h

/-- Numbers below `2^63` are canonical. -/
theorem canonical_natural {n : Nat} (h : n < 2 ^ 63) : (Value.int n).Canonical := by
  rw [Value.Canonical]
  omega

/-- A byte as a number. -/
def word8 : Form UInt8 where
  write n := .int n.toNat
  read v := (natural UInt8.size v).map UInt8.ofNat

/-- Bytes are read back. -/
theorem word8_lawful : word8.Lawful fun _ => True where
  canonical n _ := canonical_natural (Nat.lt_trans n.toNat_lt (by decide))
  read_write n _ := by
    have hread : natural UInt8.size (.int n.toNat) = some n.toNat := natural_int n.toNat_lt
    unfold word8
    dsimp only
    rw [hread, Option.map_some, UInt8.ofNat_toNat]

/-- A word of 16 bits. -/
def word16 : Form UInt16 where
  write n := .int n.toNat
  read v := (natural UInt16.size v).map UInt16.ofNat

/-- Numbers of 16 bits are read back. -/
theorem word16_lawful : word16.Lawful fun _ => True where
  canonical n _ := canonical_natural (Nat.lt_trans n.toNat_lt (by decide))
  read_write n _ := by
    have hread : natural UInt16.size (.int n.toNat) = some n.toNat := natural_int n.toNat_lt
    unfold word16
    dsimp only
    rw [hread, Option.map_some, UInt16.ofNat_toNat]

/-- A word of 32 bits. -/
def word32 : Form UInt32 where
  write n := .int n.toNat
  read v := (natural UInt32.size v).map UInt32.ofNat

/-- Numbers of 32 bits are read back. -/
theorem word32_lawful : word32.Lawful fun _ => True where
  canonical n _ := canonical_natural (Nat.lt_trans n.toNat_lt (by decide))
  read_write n _ := by
    have hread : natural UInt32.size (.int n.toNat) = some n.toNat := natural_int n.toNat_lt
    unfold word32
    dsimp only
    rw [hread, Option.map_some, UInt32.ofNat_toNat]

/-- A number of 64 bits is written with the sign that its highest bit stands for. -/
def unsigned : Form Nat where
  write n := .int (if n < 2 ^ 63 then n else (n : Int) - 2 ^ 64)
  read := natural (2 ^ 64)

/-- A number with the highest bit is written, but not read. -/
theorem unsigned_read_write {n : Nat} (h : n < 2 ^ 64) :
    unsigned.read (unsigned.write n) = if n < 2 ^ 63 then some n else none := by
  unfold unsigned
  dsimp only
  split
  · exact natural_int h
  · obtain ⟨k, hk⟩ : ∃ k : Nat, (n : Int) - 2 ^ 64 = .negSucc k := ⟨2 ^ 64 - n - 1, by omega⟩
    rw [hk]
    rfl

/-- All numbers of 64 bits are written canonically. -/
theorem canonical_unsigned {n : Nat} (h : n < 2 ^ 64) : (unsigned.write n).Canonical := by
  unfold unsigned
  dsimp only
  rw [Value.Canonical]
  split <;> omega

/-- Numbers are read back if they fit a signed integer. -/
theorem unsigned_lawful : unsigned.Lawful fun n => n < 2 ^ 63 where
  canonical n h := canonical_unsigned (by omega)
  read_write n h := by rw [unsigned_read_write (by omega), if_pos h]

/-- A word of 64 bits. -/
def word64 : Form UInt64 where
  write n := unsigned.write n.toNat
  read v := (unsigned.read v).map UInt64.ofNat

/-- Numbers of 64 bits are read back if they fit a signed integer. -/
theorem word64_lawful : word64.Lawful fun n => n.toNat < 2 ^ 63 where
  canonical n _ := canonical_unsigned n.toNat_lt
  read_write n h := by
    have hread := unsigned_lawful.read_write n.toNat h
    unfold word64
    dsimp only
    rw [hread, Option.map_some, UInt64.ofNat_toNat]

/-- A text. -/
def string : Form String where
  write s := .bytes (encodeText s.toList)
  read
    | .bytes b => (decodeText b).map String.ofList
    | _ => none

/-- Texts are read back. -/
theorem string_lawful : string.Lawful fun _ => True where
  canonical _ _ := trivial
  read_write s _ := by
    unfold string
    dsimp only
    rw [decodeText_encodeText, Option.map_some, String.ofList_toList]

/-! ## Lists and tuples -/

/-- A list of values. -/
def list (form : Form α) : Form (List α) where
  write items := .list (items.map form.write)
  read
    | .list items => items.mapM form.read
    | _ => none

/-- A list is read item by item. -/
theorem mapM_read_write {form : Form α} {domain : α → Prop} (h : form.Lawful domain)
    {items : List α} (hitems : ∀ a ∈ items, domain a) :
    (items.map form.write).mapM form.read = some items := by
  induction items with
  | nil => rfl
  | cons a items ih =>
    rw [List.map_cons, List.mapM_cons, h.read_write a (hitems a List.mem_cons_self),
      ih fun b hb => hitems b (List.mem_cons_of_mem a hb)]
    rfl

/-- Lists are read back if their items are. -/
theorem list_lawful {form : Form α} {domain : α → Prop} (h : form.Lawful domain) :
    (list form).Lawful fun items => ∀ a ∈ items, domain a where
  canonical items hitems := by
    refine canonical_list fun v hv => ?_
    obtain ⟨a, ha, rfl⟩ := List.mem_map.mp hv
    exact h.canonical a (hitems a ha)
  read_write items hitems := mapM_read_write h hitems

/-- A byte string, which is also read from a list of bytes. -/
def bytes : Form Bytes where
  write := .bytes
  read
    | .bytes b => some b
    | v => (list word8).read v

/-- Byte strings are read back. -/
theorem bytes_lawful : bytes.Lawful fun _ => True where
  canonical _ _ := trivial
  read_write _ _ := rfl

/-- Two values. -/
def pair (first : Form α) (second : Form β) : Form (α × β) where
  write p := .list [first.write p.1, second.write p.2]
  read
    | .list [v, w] => do some (← first.read v, ← second.read w)
    | _ => none

/-- Pairs are read back if both parts are. -/
theorem pair_lawful {first : Form α} {second : Form β} {domain : α → Prop} {domain' : β → Prop}
    (h : first.Lawful domain) (h' : second.Lawful domain') :
    (pair first second).Lawful fun p => domain p.1 ∧ domain' p.2 where
  canonical p hp := by
    refine canonical_list ?_
    rw [List.forall_mem_cons, List.forall_mem_singleton]
    exact ⟨h.canonical p.1 hp.1, h'.canonical p.2 hp.2⟩
  read_write p hp := by
    simp [pair, h.read_write p.1 hp.1, h'.read_write p.2 hp.2]

/-- Values of a type that stand for those of another one. -/
def via (form : Form α) (enc : β → α) (dec : α → Option β) : Form β where
  write b := form.write (enc b)
  read v := (form.read v).bind dec

/-- A form that goes through another one is lawful if its two functions fit. -/
theorem via_lawful {form : Form α} {domain : α → Prop} (h : form.Lawful domain) {enc : β → α}
    {dec : α → Option β} {domain' : β → Prop} (henc : ∀ b, domain' b → domain (enc b))
    (hdec : ∀ b, domain' b → dec (enc b) = some b) : (via form enc dec).Lawful domain' where
  canonical b hb := h.canonical _ (henc b hb)
  read_write b hb := by
    unfold via
    dsimp only
    rw [h.read_write _ (henc b hb), Option.bind_some, hdec b hb]

/-- So many values. -/
def array (n : Nat) (form : Form α) : Form (Vector α n) :=
  via (list form) Vector.toList fun items =>
    if h : items.length = n then some ⟨⟨items⟩, h⟩ else none

/-- Arrays are read back if their items are. -/
theorem array_lawful (n : Nat) {form : Form α} {domain : α → Prop} (h : form.Lawful domain) :
    (array n form).Lawful fun v => ∀ a ∈ v.toList, domain a :=
  via_lawful (list_lawful h) (fun _ hv => hv) fun v _ => by
    rw [dif_pos v.length_toList]
    rfl

/-- Bytes as a list of numbers. -/
def byteList : Form Bytes := list word8

/-- Byte strings as lists of numbers are read back. -/
theorem byteList_lawful : byteList.Lawful fun _ => True where
  canonical b _ := (list_lawful word8_lawful).canonical b fun _ _ => trivial
  read_write b _ := (list_lawful word8_lawful).read_write b fun _ _ => trivial

/-- So many bytes as a list of numbers. -/
def byteArray (n : Nat) : Form (Vector UInt8 n) := array n word8

/-- Arrays of bytes are read back. -/
theorem byteArray_lawful (n : Nat) : (byteArray n).Lawful fun _ => True where
  canonical b _ := (array_lawful n word8_lawful).canonical b fun _ _ => trivial
  read_write b _ := (array_lawful n word8_lawful).read_write b fun _ _ => trivial

/-- A set of values, in the order in which it is walked through. -/
def set [DecidableEq α] (order : Finset α → List α) (form : Form α) : Form (Finset α) :=
  via (list form) order fun items => some items.toFinset

/-- Sets are read back in whatever order they are written. -/
theorem set_lawful [DecidableEq α] {order : Finset α → List α}
    (horder : ∀ s, (order s).toFinset = s) {form : Form α} {domain : α → Prop}
    (h : form.Lawful domain) : (set order form).Lawful fun s => ∀ a ∈ s, domain a := by
  refine via_lawful (list_lawful h) (fun s hs a ha => hs a ?_) fun s _ => ?_
  · rw [← horder s]
    exact List.mem_toFinset.mpr ha
  · rw [horder]

/-! ## Records -/

/-- The name of a field or a variant. -/
def key (name : String) : Bytes := encodeText name.toList

/-- Write a record with these fields. -/
def dict (names : List String) (values : List (Option Value)) : Value :=
  .dict (record ((names.zip values).map fun field => (key field.1, field.2)))

/-- The value of a field, if it is there; a field that is there twice is an error. -/
def field (name : String) (entries : List (Bytes × Value)) : Option (Option Value) :=
  match records Prod.fst (key name) entries with
  | [] => some none
  | [entry] => some (some entry.2)
  | _ => none

/-- The values of the fields of a record, by name or by position. -/
def fields (names : List String) : Value → Option (List (Option Value))
  | .dict entries => names.mapM fun name => field name entries
  | .list items => if items.length = names.length then some (items.map some) else none
  | _ => none

/-- A field that has to be there. -/
def required (form : Form α) (v : Option Value) : Option α := v.bind form.read

/-- A field that may be left out. -/
def optional (form : Form α) : Option Value → Option (Option α)
  | none => some none
  | some v => (form.read v).map some

/-- A field that has to be there is read back. -/
theorem required_some {form : Form α} {domain : α → Prop} (h : form.Lawful domain) {a : α}
    (ha : domain a) : required form (some (form.write a)) = some a := h.read_write a ha

/-- A field that may be missing is read back. -/
theorem optional_map {form : Form α} {domain : α → Prop} (h : form.Lawful domain) {a : Option α}
    (ha : ∀ b ∈ a, domain b) : optional form (a.map form.write) = some a := by
  cases a with
  | none => rfl
  | some a =>
    rw [Option.map_some, optional, h.read_write a (ha a rfl), Option.map_some]

/-- The names of the fields are given in the order of their bytes. -/
def Ascending (names : List String) : Prop := (names.map key).Pairwise (· < ·)

instance (names : List String) : Decidable (Ascending names) :=
  inferInstanceAs (Decidable (List.Pairwise _ _))

section Records

variable {names : List String} {values : List (Option Value)}

/-- The keys of a dictionary are the names of its fields. -/
theorem keys_zip (hlength : names.length = values.length) :
    ((names.zip values).map fun field => (key field.1, field.2)).map Prod.fst = names.map key := by
  have hnames : (names.zip values).map Prod.fst = names := List.map_fst_zip hlength.le
  conv_rhs => rw [← hnames]
  rw [List.map_map, List.map_map]
  rfl

/-- A dictionary of canonical values under ascending names is canonical. -/
theorem canonical_dict (hnames : Ascending names) (hlength : names.length = values.length)
    (hvalues : ∀ v ∈ values, ∀ w ∈ v, w.Canonical) : (dict names values).Canonical := by
  refine canonical_record ?_ fun entry hentry v hv => ?_
  · rw [keys_zip hlength]
    exact hnames
  · obtain ⟨⟨name, value⟩, hmem, rfl⟩ := List.mem_map.mp hentry
    exact hvalues value (List.of_mem_zip hmem).2 v hv

/-- A field of a record with distinct keys. -/
theorem field_record {written : List (Bytes × Option Value)} (hnodup : (written.map Prod.fst).Nodup)
    {name : String} {v : Option Value} (hmem : (key name, v) ∈ written) :
    field name (record written) = some v := by
  have hkeys := hnodup.sublist (keys_record_sublist written)
  cases v with
  | some v => rw [field, records_eq_singleton hkeys (mem_record.mpr hmem)]
  | none =>
    have hnone : records Prod.fst (key name) (record written) = [] := by
      refine List.filter_eq_nil_iff.mpr fun entry hentry => ?_
      rw [decide_eq_true_eq]
      rintro heq
      have hsome : (key name, some entry.2) ∈ written := by
        rw [← heq]
        exact mem_record.mp hentry
      cases List.inj_on_of_nodup_map hnodup hmem hsome rfl
    rw [field, hnone]

/-- A record gives back all its fields. -/
theorem fields_dict (hnames : Ascending names) (hlength : names.length = values.length) :
    fields names (dict names values) = some values := by
  have hkeys := keys_zip hlength
  have hnodup : (((names.zip values).map fun field => (key field.1, field.2)).map
      Prod.fst).Nodup := by
    rw [hkeys]
    exact nodup_of_ascending hnames
  have hread : ∀ part ⊆ names.zip values, (part.map Prod.fst).mapM
      (fun name => field name (record ((names.zip values).map fun e => (key e.1, e.2)))) =
        some (part.map Prod.snd) := by
    intro part hsub
    induction part with
    | nil => rfl
    | cons entry others ih =>
      have hentry : (key entry.1, entry.2) ∈ (names.zip values).map fun e => (key e.1, e.2) :=
        List.mem_map.mpr ⟨entry, hsub List.mem_cons_self, rfl⟩
      rw [List.map_cons, List.mapM_cons, field_record hnodup hentry,
        ih fun e he => hsub (List.mem_cons_of_mem entry he)]
      rfl
  have hall := hread _ (List.Subset.refl _)
  rwa [List.map_fst_zip hlength.le, List.map_snd_zip hlength.ge] at hall

end Records

/-- One name is in order. -/
theorem ascending_singleton (name : String) : Ascending [name] := List.pairwise_singleton _ _

/-- A record with one field. -/
def single (name : String) (form : Form α) : Form α where
  write a := dict [name] [some (form.write a)]
  read v := (fields [name] v).bind fun
    | [a] => required form a
    | _ => none

/-- A record of one field is read back if the field is. -/
theorem single_lawful (name : String) {form : Form α} {domain : α → Prop}
    (h : form.Lawful domain) : (single name form).Lawful domain where
  canonical a ha := by
    refine canonical_dict (ascending_singleton name) rfl ?_
    simp [h.canonical a ha]
  read_write a ha := by
    unfold single
    dsimp only
    rw [fields_dict (ascending_singleton name) rfl]
    exact h.read_write a ha

/-! ## Variants -/

/-- A variant with its content. -/
def variant (name : String) : Option Value → Value
  | none => string.write name
  | some content => .dict [(key name, content)]

/-- The name and the content of a variant. -/
def variantOf : Value → Option (String × Option Value)
  | .bytes name => (decodeText name).map fun name => (String.ofList name, none)
  | .dict [(name, content)] =>
      (decodeText name).map fun name => (String.ofList name, some content)
  | _ => none

/-- A variant is found by its name. -/
theorem variantOf_variant (name : String) (content : Option Value) :
    variantOf (variant name content) = some (name, content) := by
  cases content <;>
    simp only [variant, string, key, variantOf, decodeText_encodeText, Option.map_some,
      String.ofList_toList]

/-- A variant without content is canonical. -/
theorem canonical_variant_none (name : String) : (variant name none).Canonical := trivial

/-- A variant with canonical content is canonical. -/
theorem canonical_variant_some (name : String) {v : Value} (h : v.Canonical) :
    (variant name (some v)).Canonical := by
  rw [variant, Value.Canonical]
  exact ⟨List.pairwise_singleton _ _, h, trivial⟩

/-- A variant beside its content, under two keys. -/
def adjacent (content tag : String) (name : String) (v : Value) : Value :=
  dict [content, tag] [some v, some (string.write name)]

/-- The name and the content of a variant under two keys. -/
def adjacentOf (content tag : String) (v : Value) : Option (String × Value) :=
  match fields [content, tag] v with
  | some [some v, name] => (required string name).map fun name => (name, v)
  | _ => none

/-- A variant beside its content is found by its name. -/
theorem adjacentOf_adjacent {content tag : String} (h : Ascending [content, tag]) (name : String)
    (v : Value) : adjacentOf content tag (adjacent content tag name v) = some (name, v) := by
  rw [adjacentOf, adjacent, fields_dict h rfl]
  simp only [required_some string_lawful, Option.map_some]

/-- A variant beside canonical content is canonical. -/
theorem canonical_adjacent {content tag : String} (h : Ascending [content, tag]) (name : String)
    {v : Value} (hv : v.Canonical) : (adjacent content tag name v).Canonical := by
  refine canonical_dict h rfl ?_
  simp [hv, string_lawful.canonical]

end Form

end Bqti.Core.Bencode
