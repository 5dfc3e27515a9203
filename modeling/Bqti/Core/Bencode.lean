import Mathlib.Data.List.Nodup
import Mathlib.Tactic.Common
import Bqti.Core.Word

/-!
# Bencoding

Integers, byte strings, lists and dictionaries as byte strings. The parser inverts the encoder
on every value whose integers fit into 64 bits, so that no two values share an encoding.
A dictionary that a record is read from by key is the record written back precisely when it has
no other keys.
-/

namespace Bqti.Core.Bencode

/-- A bencoded value. -/
inductive Value
  | int (n : Int)
  | bytes (b : Bytes)
  | list (items : List Value)
  | dict (entries : List (Bytes × Value))

/-! ## Encoding -/

/-- The last decimal digits of a number, at most as many as the fuel allows. -/
def digitsAux : Nat → Nat → Bytes
  | 0, _ => []
  | fuel + 1, n =>
      if n < 10 then [UInt8.ofNat (48 + n)]
      else digitsAux fuel (n / 10) ++ [UInt8.ofNat (48 + n % 10)]

/-- The decimal digits of a number. -/
def digits (n : Nat) : Bytes := digitsAux (n + 1) n

/-- An integer between `i` and `e`. -/
def encodeInt (n : Int) : Bytes :=
  105 :: (if n < 0 then [45] else []) ++ digits n.natAbs ++ [101]

/-- A byte string after its length and a colon. -/
def encodeBytes (b : Bytes) : Bytes := digits b.length ++ 58 :: b

mutual

/-- The encoding of a value. -/
def encode : Value → Bytes
  | .int n => encodeInt n
  | .bytes b => encodeBytes b
  | .list items => 108 :: encodeItems items ++ [101]
  | .dict entries => 100 :: encodeEntries entries ++ [101]

/-- The items of a list, one after another. -/
def encodeItems : List Value → Bytes
  | [] => []
  | v :: rest => encode v ++ encodeItems rest

/-- The entries of a dictionary, each key before its value. -/
def encodeEntries : List (Bytes × Value) → Bytes
  | [] => []
  | (k, v) :: rest => encodeBytes k ++ (encode v ++ encodeEntries rest)

end

mutual

/-- The integers fit into 64 bits and the keys of every dictionary ascend. -/
def Value.Canonical : Value → Prop
  | .int n => -2 ^ 63 ≤ n ∧ n < 2 ^ 63
  | .bytes _ => True
  | .list items => CanonicalItems items
  | .dict entries => (entries.map Prod.fst).Pairwise (· < ·) ∧ CanonicalEntries entries

/-- All items of a list are canonical. -/
def CanonicalItems : List Value → Prop
  | [] => True
  | v :: rest => v.Canonical ∧ CanonicalItems rest

/-- All values of a dictionary are canonical. -/
def CanonicalEntries : List (Bytes × Value) → Prop
  | [] => True
  | (_, v) :: rest => v.Canonical ∧ CanonicalEntries rest

end

/-! ## Parsing -/

/-- Whether a byte is a decimal digit. -/
def isDigit (b : UInt8) : Bool := 48 ≤ b && b ≤ 57

/-- Read digits as long as there are some. -/
def readDigits (acc : Nat) : Bytes → Nat × Bytes
  | [] => (acc, [])
  | b :: rest =>
      if isDigit b then readDigits (acc * 10 + (b.toNat - 48)) rest else (acc, b :: rest)

/-- Read a number of at least one digit. -/
def parseNat : Bytes → Option (Nat × Bytes)
  | [] => none
  | b :: rest => if isDigit b then some (readDigits 0 (b :: rest)) else none

/-- Read an integer after its `i`; one that does not fit into 64 bits is an error. -/
def parseInt (input : Bytes) : Option (Int × Bytes) :=
  let negative := input.head? = some 45
  match parseNat (if negative then input.tail else input) with
  | some (n, 101 :: rest) =>
      let value : Int := if negative then -n else n
      if -2 ^ 63 ≤ value ∧ value < 2 ^ 63 then some (value, rest) else none
  | _ => none

/-- Read a byte string. -/
def parseBytes (input : Bytes) : Option (Bytes × Bytes) :=
  match parseNat input with
  | some (n, 58 :: rest) => if n ≤ rest.length then some (rest.take n, rest.drop n) else none
  | _ => none

mutual

/-- Read one value; the fuel is a bound on its encoding. -/
def parseValue : Nat → Bytes → Option (Value × Bytes)
  | 0, _ => none
  | _ + 1, [] => none
  | fuel + 1, b :: rest =>
      if b = 105 then (parseInt rest).map fun out => (.int out.1, out.2)
      else if b = 108 then (parseItems fuel rest).map fun out => (.list out.1, out.2)
      else if b = 100 then (parseEntries fuel rest).map fun out => (.dict out.1, out.2)
      else (parseBytes (b :: rest)).map fun out => (.bytes out.1, out.2)

/-- Read items up to an `e`. -/
def parseItems : Nat → Bytes → Option (List Value × Bytes)
  | 0, _ => none
  | fuel + 1, input =>
      if input.head? = some 101 then some ([], input.tail)
      else (parseValue fuel input).bind fun first =>
        (parseItems fuel first.2).map fun out => (first.1 :: out.1, out.2)

/-- Read entries up to an `e`. -/
def parseEntries : Nat → Bytes → Option (List (Bytes × Value) × Bytes)
  | 0, _ => none
  | fuel + 1, input =>
      if input.head? = some 101 then some ([], input.tail)
      else (parseBytes input).bind fun key =>
        (parseValue fuel key.2).bind fun first =>
          (parseEntries fuel first.2).map fun out => ((key.1, first.1) :: out.1, out.2)

end

/-- Read the value that a byte string starts with. -/
def parse (input : Bytes) : Option Value := (parseValue input.length input).map Prod.fst

/-! ## The parser inverts the encoder -/

/-- The bytes from zero to nine are digits. -/
theorem isDigit_ofNat {d : Nat} (h : d < 10) : isDigit (UInt8.ofNat (48 + d)) = true := by
  have hall : ∀ d < 10, isDigit (UInt8.ofNat (48 + d)) = true := by decide
  exact hall d h

/-- A digit stands for its number. -/
theorem toNat_ofNat_digit {d : Nat} (h : d < 10) : (UInt8.ofNat (48 + d)).toNat - 48 = d := by
  have hall : ∀ d < 10, (UInt8.ofNat (48 + d)).toNat - 48 = d := by decide
  exact hall d h

/-- Digits that are read add up to the number that was written, whatever follows. -/
theorem readDigits_append_digits {fuel n : Nat} (h : n < fuel) (acc : Nat) (rest : Bytes) :
    ∃ k, readDigits acc (digitsAux fuel n ++ rest) = readDigits (acc * 10 ^ k + n) rest := by
  induction fuel generalizing n rest with
  | zero => omega
  | succ fuel ih =>
    rw [digitsAux]
    split
    · rename_i hlt
      refine ⟨1, ?_⟩
      rw [List.singleton_append, readDigits, if_pos (isDigit_ofNat hlt), toNat_ofNat_digit hlt,
        Nat.pow_one]
    · rename_i hge
      have hmod : n % 10 < 10 := Nat.mod_lt _ (by omega)
      obtain ⟨k, hk⟩ := ih (n := n / 10) (by omega) ([UInt8.ofNat (48 + n % 10)] ++ rest)
      refine ⟨k + 1, ?_⟩
      rw [List.append_assoc, hk, List.singleton_append, readDigits, if_pos (isDigit_ofNat hmod),
        toNat_ofNat_digit hmod]
      congr 1
      rw [Nat.pow_succ, Nat.add_mul, Nat.mul_assoc]
      omega

/-- Digits start with a digit. -/
theorem digits_eq_cons (n : Nat) : ∃ b rest, digits n = b :: rest ∧ isDigit b = true := by
  have haux : ∀ fuel n, n < fuel →
      ∃ b rest, digitsAux fuel n = b :: rest ∧ isDigit b = true := by
    intro fuel
    induction fuel with
    | zero => intro n hn; omega
    | succ fuel ih =>
      intro n hn
      rw [digitsAux]
      split
      · rename_i hlt
        exact ⟨_, _, rfl, isDigit_ofNat hlt⟩
      · obtain ⟨b, rest, heq, hb⟩ := ih (n / 10) (by omega)
        exact ⟨b, rest ++ [UInt8.ofNat (48 + n % 10)], by rw [heq]; rfl, hb⟩
  exact haux (n + 1) n (Nat.lt_succ_self n)

/-- A number that ends before something else is read back. -/
theorem parseNat_digits (n : Nat) {b : UInt8} (hb : isDigit b = false) (rest : Bytes) :
    parseNat (digits n ++ b :: rest) = some (n, b :: rest) := by
  obtain ⟨d, ds, hd, hdigit⟩ := digits_eq_cons n
  obtain ⟨k, hk⟩ := readDigits_append_digits (Nat.lt_succ_self n) 0 (b :: rest)
  have hstop : readDigits n (b :: rest) = (n, b :: rest) := by
    rw [readDigits, hb, if_neg Bool.false_ne_true]
  rw [← digits, hd, List.cons_append] at hk
  rw [hd, List.cons_append, parseNat, if_pos hdigit, hk, Nat.zero_mul, Nat.zero_add, hstop]

/-- A byte string is read back. -/
theorem parseBytes_encodeBytes (b rest : Bytes) :
    parseBytes (encodeBytes b ++ rest) = some (b, rest) := by
  rw [encodeBytes, List.append_assoc, List.cons_append, parseBytes,
    parseNat_digits b.length (by rfl) (b ++ rest)]
  simp

/-- A number starts with a digit. -/
theorem head?_digits_append (n : Nat) (rest : Bytes) :
    ∃ b, (digits n ++ rest).head? = some b ∧ isDigit b = true := by
  obtain ⟨b, ds, hd, hdigit⟩ := digits_eq_cons n
  exact ⟨b, by rw [hd]; rfl, hdigit⟩

/-- An integer of 64 bits is read back. -/
theorem parseInt_encodeInt {n : Int} (h : -2 ^ 63 ≤ n ∧ n < 2 ^ 63) (rest : Bytes) :
    parseInt ((encodeInt n).tail ++ rest) = some (n, rest) := by
  have hread := parseNat_digits n.natAbs (b := 101) (by rfl) rest
  by_cases hneg : n < 0
  · have htail : (encodeInt n).tail ++ rest = 45 :: (digits n.natAbs ++ 101 :: rest) := by
      simp [encodeInt, hneg]
    have hvalue : (-(n.natAbs : Int)) = n := by omega
    rw [htail, parseInt]
    simp only [List.head?_cons, if_true, List.tail_cons, hread, hvalue]
    rw [if_pos h]
  · have htail : (encodeInt n).tail ++ rest = digits n.natAbs ++ 101 :: rest := by
      simp [encodeInt, hneg]
    have hvalue : (n.natAbs : Int) = n := by omega
    obtain ⟨b, hb, hdigit⟩ := head?_digits_append n.natAbs (101 :: rest)
    have hminus : (digits n.natAbs ++ 101 :: rest).head? ≠ some 45 := by
      rw [hb]
      intro heq
      rw [Option.some.inj heq] at hdigit
      exact absurd hdigit (by decide)
    rw [htail, parseInt]
    simp only [hminus, if_false, hread, hvalue]
    rw [if_pos h]

/-- An encoding starts with a byte that tells the kind of the value, and never with `e`. -/
theorem head?_encode (v : Value) : ∃ b, (encode v).head? = some b ∧ b ≠ 101 := by
  cases v with
  | int n => exact ⟨105, by simp [encode, encodeInt], by decide⟩
  | bytes b =>
    obtain ⟨d, hd, hdigit⟩ := head?_digits_append b.length (58 :: b)
    refine ⟨d, by rw [encode, encodeBytes, hd], ?_⟩
    rintro rfl
    exact absurd hdigit (by decide)
  | list items => exact ⟨108, by simp [encode], by decide⟩
  | dict entries => exact ⟨100, by simp [encode], by decide⟩

/-- No value starts like the end of a list. -/
theorem head?_encode_append (v : Value) (rest : Bytes) :
    (encode v ++ rest).head? ≠ some 101 := by
  obtain ⟨b, hb, hne⟩ := head?_encode v
  rw [List.head?_append, hb]
  simpa using hne

/-- No byte string starts like the end of a dictionary. -/
theorem head?_encodeBytes_append (b rest : Bytes) :
    (encodeBytes b ++ rest).head? ≠ some 101 := by
  have h := head?_encode_append (.bytes b) rest
  rwa [encode] at h

/-- Every value is written with at least one byte. -/
theorem length_encode_pos (v : Value) : 0 < (encode v).length := by
  obtain ⟨b, hb, -⟩ := head?_encode v
  rw [List.length_pos_iff]
  intro hnil
  rw [hnil] at hb
  exact absurd hb (by simp)

mutual

/-- A canonical value is read back, whatever follows. -/
theorem parseValue_encode (v : Value) (hv : v.Canonical) (fuel : Nat)
    (hfuel : (encode v).length ≤ fuel) (rest : Bytes) :
    parseValue fuel (encode v ++ rest) = some (v, rest) := by
  obtain ⟨fuel, rfl⟩ : ∃ f, fuel = f + 1 :=
    Nat.exists_eq_add_of_lt (Nat.lt_of_lt_of_le (length_encode_pos v) hfuel) |>.imp
      fun f hf => by omega
  match v with
  | .int n =>
    have hparse := parseInt_encodeInt hv rest
    have hcons : encode (.int n) ++ rest = 105 :: ((encodeInt n).tail ++ rest) := by
      simp [encode, encodeInt]
    rw [hcons, parseValue, if_pos rfl, hparse]
    rfl
  | .bytes b =>
    have hparse := parseBytes_encodeBytes b rest
    obtain ⟨d, ds, hd, hdigit⟩ := digits_eq_cons b.length
    have hcons : encode (.bytes b) ++ rest = d :: (ds ++ 58 :: b ++ rest) := by
      simp [encode, encodeBytes, hd]
    have hne : ∀ c : UInt8, isDigit c = false → d ≠ c := by
      rintro c hc rfl
      rw [hc] at hdigit
      exact absurd hdigit Bool.false_ne_true
    rw [← encode, hcons] at hparse
    rw [hcons, parseValue, if_neg (hne 105 (by rfl)), if_neg (hne 108 (by rfl)),
      if_neg (hne 100 (by rfl)), hparse]
    rfl
  | .list items =>
    have hlen : (encodeItems items).length + 1 ≤ fuel := by
      simp only [encode, List.length_cons, List.length_append, List.length_nil] at hfuel
      omega
    have hparse := parseItems_encodeItems items hv fuel hlen rest
    have hcons : encode (.list items) ++ rest = 108 :: (encodeItems items ++ 101 :: rest) := by
      simp [encode]
    rw [hcons, parseValue, if_neg (by decide), if_pos rfl, hparse]
    rfl
  | .dict entries =>
    have hlen : (encodeEntries entries).length + 1 ≤ fuel := by
      simp only [encode, List.length_cons, List.length_append, List.length_nil] at hfuel
      omega
    have hparse := parseEntries_encodeEntries entries hv.2 fuel hlen rest
    have hcons : encode (.dict entries) ++ rest =
        100 :: (encodeEntries entries ++ 101 :: rest) := by
      simp [encode]
    rw [hcons, parseValue, if_neg (by decide), if_neg (by decide), if_pos rfl, hparse]
    rfl

/-- The items of a list are read back up to its end. -/
theorem parseItems_encodeItems (items : List Value) (hitems : CanonicalItems items) (fuel : Nat)
    (hfuel : (encodeItems items).length + 1 ≤ fuel) (rest : Bytes) :
    parseItems fuel (encodeItems items ++ 101 :: rest) = some (items, rest) := by
  obtain ⟨fuel, rfl⟩ : ∃ f, fuel = f + 1 := ⟨fuel - 1, by omega⟩
  match items with
  | [] => rfl
  | v :: items =>
    have hpos := length_encode_pos v
    simp only [encodeItems, List.length_append] at hfuel
    have hfirst := parseValue_encode v hitems.1 fuel (by omega)
      (encodeItems items ++ 101 :: rest)
    have hrest := parseItems_encodeItems items hitems.2 fuel (by omega) rest
    rw [encodeItems, List.append_assoc, parseItems, if_neg (head?_encode_append v _), hfirst,
      Option.bind_some, hrest]
    rfl

/-- The entries of a dictionary are read back up to its end. -/
theorem parseEntries_encodeEntries (entries : List (Bytes × Value))
    (hentries : CanonicalEntries entries) (fuel : Nat)
    (hfuel : (encodeEntries entries).length + 1 ≤ fuel) (rest : Bytes) :
    parseEntries fuel (encodeEntries entries ++ 101 :: rest) = some (entries, rest) := by
  obtain ⟨fuel, rfl⟩ : ∃ f, fuel = f + 1 := ⟨fuel - 1, by omega⟩
  match entries with
  | [] => rfl
  | (k, v) :: entries =>
    have hpos := length_encode_pos v
    have hkey := length_encode_pos (.bytes k)
    rw [encode] at hkey
    simp only [encodeEntries, List.length_append] at hfuel
    have hfirst := parseValue_encode v hentries.1 fuel (by omega)
      (encodeEntries entries ++ 101 :: rest)
    have hrest := parseEntries_encodeEntries entries hentries.2 fuel (by omega) rest
    rw [encodeEntries, List.append_assoc, List.append_assoc, parseEntries,
      if_neg (head?_encodeBytes_append k _), parseBytes_encodeBytes, Option.bind_some, hfirst,
      Option.bind_some, hrest]
    rfl

end

/-- A canonical value is read back from its encoding. -/
theorem parse_encode {v : Value} (hv : v.Canonical) : parse (encode v) = some v := by
  have h := parseValue_encode v hv (encode v).length (Nat.le_refl _) []
  rw [List.append_nil] at h
  rw [parse, h]
  rfl

/-- Canonical values with one encoding are the same. -/
theorem encode_inj {v w : Value} (hv : v.Canonical) (hw : w.Canonical)
    (h : encode v = encode w) : v = w := by
  have hparse := parse_encode hv
  rw [h, parse_encode hw] at hparse
  exact (Option.some.inj hparse).symm

/-! ## Parts of canonical values -/

/-- The items of a list are canonical if each of them is. -/
theorem canonicalItems_iff {items : List Value} :
    CanonicalItems items ↔ ∀ v ∈ items, v.Canonical := by
  induction items with
  | nil => simp [CanonicalItems]
  | cons v items ih => simp [CanonicalItems, ih]

/-- The entries of a dictionary are canonical if each value is. -/
theorem canonicalEntries_iff {entries : List (Bytes × Value)} :
    CanonicalEntries entries ↔ ∀ e ∈ entries, e.2.Canonical := by
  induction entries with
  | nil => simp [CanonicalEntries]
  | cons e entries ih => simp [CanonicalEntries, ih]

/-- What is looked up is an entry. -/
theorem mem_of_lookup {entries : List (Bytes × Value)} {k : Bytes} {v : Value}
    (h : entries.lookup k = some v) : (k, v) ∈ entries := by
  obtain ⟨before, after, heq, -⟩ := List.lookup_eq_some_iff.mp h
  rw [heq]
  exact List.mem_append_right _ List.mem_cons_self

/-- The values of a canonical dictionary are canonical. -/
theorem canonical_of_lookup {entries : List (Bytes × Value)} (h : (Value.dict entries).Canonical)
    {k : Bytes} {v : Value} (hv : entries.lookup k = some v) : v.Canonical := by
  rw [Value.Canonical] at h
  exact canonicalEntries_iff.mp h.2 _ (mem_of_lookup hv)

/-- An item of a canonical list is canonical. -/
theorem canonical_of_mem {items : List Value} (h : (Value.list items).Canonical) {v : Value}
    (hv : v ∈ items) : v.Canonical := by
  rw [Value.Canonical] at h
  exact canonicalItems_iff.mp h v hv

/-- A list of canonical items is canonical. -/
theorem canonical_list {items : List Value} (h : ∀ v ∈ items, v.Canonical) :
    (Value.list items).Canonical := by
  rw [Value.Canonical]
  exact canonicalItems_iff.mpr h

/-! ## Records -/

/-- The dictionary of a record: the fields that are there, under their keys. -/
def record (fields : List (Bytes × Option Value)) : List (Bytes × Value) :=
  fields.filterMap fun field => field.2.map fun v => (field.1, v)

/-- A record has the fields that have a value. -/
theorem mem_record {fields : List (Bytes × Option Value)} {k : Bytes} {v : Value} :
    (k, v) ∈ record fields ↔ (k, some v) ∈ fields := by
  rw [record, List.mem_filterMap]
  constructor
  · rintro ⟨⟨k', v'⟩, hmem, heq⟩
    obtain ⟨w, rfl, heq⟩ := Option.map_eq_some_iff.mp heq
    cases heq
    exact hmem
  · exact fun hmem => ⟨_, hmem, rfl⟩

/-- The first field of a record is there if it has a value. -/
theorem record_cons (k : Bytes) (v : Option Value) (fields : List (Bytes × Option Value)) :
    record ((k, v) :: fields) = (v.map fun v => (k, v)).toList ++ record fields := by
  cases v <;> rfl

/-- Some of the keys of the fields, in their order. -/
theorem keys_record_sublist (fields : List (Bytes × Option Value)) :
    ((record fields).map Prod.fst).Sublist (fields.map Prod.fst) := by
  induction fields with
  | nil => exact List.Sublist.slnil
  | cons field fields ih =>
    obtain ⟨k, v⟩ := field
    rw [record_cons]
    cases v with
    | none => exact ih.cons k
    | some v => exact ih.cons_cons k

/-- A record with ascending keys and canonical fields is canonical. -/
theorem canonical_record {fields : List (Bytes × Option Value)}
    (hsorted : (fields.map Prod.fst).Pairwise (· < ·))
    (hvalues : ∀ field ∈ fields, ∀ v, field.2 = some v → v.Canonical) :
    (Value.dict (record fields)).Canonical := by
  rw [Value.Canonical]
  refine ⟨hsorted.sublist (keys_record_sublist fields), canonicalEntries_iff.mpr ?_⟩
  rintro ⟨k, v⟩ hmem
  exact hvalues _ (mem_record.mp hmem) v rfl

/-- A key that no entry has is not found. -/
theorem lookup_eq_none {entries : List (Bytes × Value)} {k : Bytes}
    (h : ∀ e ∈ entries, k ≠ e.1) : entries.lookup k = none := by
  rw [List.lookup_eq_none_iff]
  exact fun e he => by simpa using h e he

/-- Another key is looked up behind an entry. -/
theorem lookup_cons_of_ne {entries : List (Bytes × Value)} {k k' : Bytes} {v : Value}
    (h : k ≠ k') : ((k', v) :: entries).lookup k = entries.lookup k := by
  have hbeq : (k == k') = false := by simpa using h
  rw [List.lookup_cons, hbeq]

/-- An entry of a dictionary with distinct keys is found under its key. -/
theorem lookup_of_mem {entries : List (Bytes × Value)} (h : (entries.map Prod.fst).Nodup)
    {k : Bytes} {v : Value} (hmem : (k, v) ∈ entries) : entries.lookup k = some v := by
  induction entries with
  | nil => exact absurd hmem List.not_mem_nil
  | cons e entries ih =>
    obtain ⟨k', v'⟩ := e
    simp only [List.map_cons, List.nodup_cons] at h
    rcases List.mem_cons.mp hmem with heq | hrest
    · cases heq
      exact List.lookup_cons_self
    · have hne : k ≠ k' := by
        rintro rfl
        exact h.1 (List.mem_map.mpr ⟨_, hrest, rfl⟩)
      rw [lookup_cons_of_ne hne]
      exact ih h.2 hrest

/-- The field of a record is found under its key. -/
theorem lookup_record {fields : List (Bytes × Option Value)} (h : (fields.map Prod.fst).Nodup)
    {k : Bytes} {v : Option Value} (hmem : (k, v) ∈ fields) : (record fields).lookup k = v := by
  cases v with
  | none =>
    apply lookup_eq_none
    rintro ⟨k', w⟩ he rfl
    have heq := List.inj_on_of_nodup_map h hmem (mem_record.mp he) rfl
    cases heq
  | some v => exact lookup_of_mem (h.sublist (keys_record_sublist fields)) (mem_record.mpr hmem)

/-- Ascending keys are distinct. -/
theorem nodup_of_ascending {keys : List Bytes} (h : keys.Pairwise (· < ·)) : keys.Nodup := by
  refine h.imp fun hlt heq => ?_
  rw [heq] at hlt
  exact List.lt_irrefl _ hlt

/-- Dictionaries with ascending keys and the same entries are the same. -/
theorem eq_of_mem_iff {entries entries' : List (Bytes × Value)}
    (hsorted : (entries.map Prod.fst).Pairwise (· < ·))
    (hsorted' : (entries'.map Prod.fst).Pairwise (· < ·))
    (hmem : ∀ e, e ∈ entries ↔ e ∈ entries') : entries = entries' := by
  have hnodup := List.Nodup.of_map _ (nodup_of_ascending hsorted)
  have hnodup' := List.Nodup.of_map _ (nodup_of_ascending hsorted')
  have hperm := (List.perm_ext_iff_of_nodup hnodup hnodup').mpr hmem
  refine hperm.eq_of_pairwise (fun e e' _ _ hlt hgt => ?_) (List.pairwise_map.mp hsorted)
    (List.pairwise_map.mp hsorted')
  exact absurd (List.lt_trans hlt hgt) (List.lt_irrefl _)

/-- A dictionary with ascending keys that has the fields of a record under their keys, and no
other keys, is the dictionary of the record. -/
theorem eq_record {fields : List (Bytes × Option Value)} {entries : List (Bytes × Value)}
    (hfields : (fields.map Prod.fst).Pairwise (· < ·))
    (hsorted : (entries.map Prod.fst).Pairwise (· < ·))
    (hkeys : ∀ e ∈ entries, e.1 ∈ fields.map Prod.fst)
    (hvalues : ∀ field ∈ fields, entries.lookup field.1 = field.2) :
    entries = record fields := by
  refine eq_of_mem_iff hsorted (hfields.sublist (keys_record_sublist fields)) ?_
  rintro ⟨k, v⟩
  rw [mem_record]
  constructor
  · intro hmem
    obtain ⟨⟨k', w⟩, hfield, rfl⟩ := List.mem_map.mp (hkeys _ hmem)
    have hw : w = some v := (hvalues _ hfield).symm.trans
      (lookup_of_mem (nodup_of_ascending hsorted) hmem)
    exact hw ▸ hfield
  · exact fun hfield => mem_of_lookup (hvalues _ hfield)

end Bqti.Core.Bencode
