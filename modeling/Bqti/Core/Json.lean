import Mathlib.Tactic.Common
import Mathlib.Data.List.Basic

/-!
# JSON texts

Values are printed without whitespace and read back with whitespace anywhere between tokens. A
number is kept as it is written, so that nothing is said about its precision. The reader
inverts the printer, prints contain no line break, and a text that was cut off is not taken for
a shorter one.
-/

namespace Bqti.Core.Json

/-- A JSON value. -/
inductive Value
  | null
  | bool (b : Bool)
  | number (text : List Char)
  | string (s : List Char)
  | array (items : List Value)
  | object (entries : List (List Char × Value))

/-! ## Printing -/

/-- The characters with an escape of two characters, and its second character. -/
def shortEscapes : List (Char × Char) :=
  [('"', '"'), ('\\', '\\'), ('\x08', 'b'), ('\x0c', 'f'), ('\n', 'n'), ('\r', 'r'), ('\t', 't')]

/-- A hexadecimal digit. -/
def hexDigit (n : Nat) : Char := if n < 10 then Char.ofNat (48 + n) else Char.ofNat (87 + n)

/-- A character as it stands in a string. -/
def printChar (c : Char) : List Char :=
  match shortEscapes.lookup c with
  | some e => ['\\', e]
  | none =>
      if c.toNat < 32 then ['\\', 'u', '0', '0', hexDigit (c.toNat / 16), hexDigit (c.toNat % 16)]
      else [c]

/-- A string between quotes. -/
def printString (s : List Char) : List Char := '"' :: (s.flatMap printChar ++ ['"'])

mutual

/-- The text of a value. -/
def print : Value → List Char
  | .null => ['n', 'u', 'l', 'l']
  | .bool b => if b then ['t', 'r', 'u', 'e'] else ['f', 'a', 'l', 's', 'e']
  | .number text => text
  | .string s => printString s
  | .array items => '[' :: (printItems items ++ [']'])
  | .object entries => '{' :: (printEntries entries ++ ['}'])

/-- The items of an array with commas between them. -/
def printItems : List Value → List Char
  | [] => []
  | [v] => print v
  | v :: w :: rest => print v ++ ',' :: printItems (w :: rest)

/-- The entries of an object with commas between them. -/
def printEntries : List (List Char × Value) → List Char
  | [] => []
  | [(k, v)] => printString k ++ ':' :: print v
  | (k, v) :: e :: rest => printString k ++ ':' :: (print v ++ ',' :: printEntries (e :: rest))

end

/-! ## Reading -/

/-- White space between tokens. -/
def isSpace (c : Char) : Bool := c == ' ' || c == '\n' || c == '\r' || c == '\t'

/-- What follows the whitespace. -/
def skipSpace : List Char → List Char
  | [] => []
  | c :: rest => if isSpace c then skipSpace rest else c :: rest

/-- The characters that a number is written with. -/
def isNumberChar (c : Char) : Bool :=
  c.isDigit || c == '-' || c == '+' || c == '.' || c == 'e' || c == 'E'

/-- Digits are taken off, at least one. -/
def dropDigits (text : List Char) : Option (List Char) :=
  match text with
  | [] => none
  | c :: rest => if c.isDigit then some (rest.dropWhile Char.isDigit) else none

/-- The part before a fraction or an exponent: no zero stands before another digit. -/
def dropInteger : List Char → Option (List Char)
  | '-' :: '0' :: rest | '0' :: rest => some rest
  | '-' :: rest | rest => dropDigits rest

/-- A fraction, if there is one. -/
def dropFraction : List Char → Option (List Char)
  | '.' :: rest => dropDigits rest
  | rest => some rest

/-- An exponent, if there is one. -/
def dropExponent : List Char → Option (List Char)
  | 'e' :: '+' :: rest | 'e' :: '-' :: rest | 'e' :: rest
  | 'E' :: '+' :: rest | 'E' :: '-' :: rest | 'E' :: rest => dropDigits rest
  | rest => some rest

/-- A text is a number. -/
def isNumber (text : List Char) : Bool :=
  ((dropInteger text).bind fun rest => (dropFraction rest).bind dropExponent) = some []

/-- The value of a hexadecimal digit of either case. -/
def hexValue (c : Char) : Option Nat :=
  if '0' ≤ c ∧ c ≤ '9' then some (c.toNat - 48)
  else if 'a' ≤ c ∧ c ≤ 'f' then some (c.toNat - 87)
  else if 'A' ≤ c ∧ c ≤ 'F' then some (c.toNat - 55)
  else none

/-- Four hexadecimal digits. -/
def parseHex : List Char → Option (Nat × List Char)
  | a :: b :: c :: d :: rest =>
      (hexValue a).bind fun a => (hexValue b).bind fun b => (hexValue c).bind fun c =>
        (hexValue d).map fun d => (((a * 16 + b) * 16 + c) * 16 + d, rest)
  | _ => none

/-- The second half of a character beyond the first plane. -/
def parseLow (high : Nat) : List Char → Option (Char × List Char)
  | '\\' :: 'u' :: rest =>
      (parseHex rest).bind fun low =>
        if 0xDC00 ≤ low.1 ∧ low.1 < 0xE000 then
          some (Char.ofNat (0x10000 + (high - 0xD800) * 0x400 + (low.1 - 0xDC00)), low.2)
        else none
  | _ => none

/-- A character by its number; half a pair is an error. -/
def parseUnicode (input : List Char) : Option (Char × List Char) :=
  (parseHex input).bind fun out =>
    if 0xD800 ≤ out.1 ∧ out.1 < 0xDC00 then parseLow out.1 out.2
    else if 0xDC00 ≤ out.1 ∧ out.1 < 0xE000 then none
    else some (Char.ofNat out.1, out.2)

/-- What follows a backslash. -/
def parseEscape : List Char → Option (Char × List Char)
  | [] => none
  | e :: rest =>
      if e = 'u' then parseUnicode rest
      else if e = '/' then some ('/', rest)
      else (shortEscapes.find? fun entry => entry.2 == e).map fun entry => (entry.1, rest)

/-- The characters of a string up to its closing quote. -/
def parseChars : Nat → List Char → Option (List Char × List Char)
  | 0, _ => none
  | _ + 1, [] => none
  | fuel + 1, c :: rest =>
      if c = '"' then some ([], rest)
      else if c = '\\' then
        (parseEscape rest).bind fun first =>
          (parseChars fuel first.2).map fun out => (first.1 :: out.1, out.2)
      else if c.toNat < 32 then none
      else (parseChars fuel rest).map fun out => (c :: out.1, out.2)

/-- A fixed word. -/
def parseWord (word : List Char) (v : Value) (input : List Char) : Option (Value × List Char) :=
  if word.isPrefixOf input then some (v, input.drop word.length) else none

/-- A number takes all characters that numbers are written with. -/
def parseNumber (input : List Char) : Option (Value × List Char) :=
  let text := input.takeWhile isNumberChar
  if isNumber text then some (.number text, input.dropWhile isNumberChar) else none

/-- A key, with the colon behind it. -/
def parseKey (fuel : Nat) (input : List Char) : Option (List Char × List Char) :=
  match skipSpace input with
  | '"' :: rest =>
      (parseChars fuel rest).bind fun key =>
        match skipSpace key.2 with
        | ':' :: rest => some (key.1, rest)
        | _ => none
  | _ => none

mutual

/-- Read one value; the fuel is a bound on its text. -/
def parseValue : Nat → List Char → Option (Value × List Char)
  | 0, _ => none
  | fuel + 1, input =>
      match skipSpace input with
      | [] => none
      | c :: rest =>
          if c = '"' then (parseChars fuel rest).map fun out => (.string out.1, out.2)
          else if c = '[' then
            if (skipSpace rest).head? = some ']' then some (.array [], (skipSpace rest).tail)
            else (parseItems fuel rest).map fun out => (.array out.1, out.2)
          else if c = '{' then
            if (skipSpace rest).head? = some '}' then some (.object [], (skipSpace rest).tail)
            else (parseEntries fuel rest).map fun out => (.object out.1, out.2)
          else if c = 'n' then parseWord ['n', 'u', 'l', 'l'] .null (c :: rest)
          else if c = 't' then parseWord ['t', 'r', 'u', 'e'] (.bool true) (c :: rest)
          else if c = 'f' then parseWord ['f', 'a', 'l', 's', 'e'] (.bool false) (c :: rest)
          else parseNumber (c :: rest)

/-- Read items up to the bracket. -/
def parseItems : Nat → List Char → Option (List Value × List Char)
  | 0, _ => none
  | fuel + 1, input =>
      (parseValue fuel input).bind fun first =>
        match skipSpace first.2 with
        | ',' :: rest => (parseItems fuel rest).map fun out => (first.1 :: out.1, out.2)
        | ']' :: rest => some ([first.1], rest)
        | _ => none

/-- Read entries up to the brace. -/
def parseEntries : Nat → List Char → Option (List (List Char × Value) × List Char)
  | 0, _ => none
  | fuel + 1, input =>
      (parseKey fuel input).bind fun key =>
        (parseValue fuel key.2).bind fun first =>
          match skipSpace first.2 with
          | ',' :: rest =>
              (parseEntries fuel rest).map fun out => ((key.1, first.1) :: out.1, out.2)
          | '}' :: rest => some ([(key.1, first.1)], rest)
          | _ => none

end

/-- Read a text that is one value. -/
def parse (text : List Char) : Option Value :=
  (parseValue (text.length + 1) text).bind fun out =>
    if skipSpace out.2 = [] then some out.1 else none

/-! ## The reader inverts the printer -/

/-- Before something that is no space nothing is skipped. -/
theorem skipSpace_cons {c : Char} (h : isSpace c = false) (rest : List Char) :
    skipSpace (c :: rest) = c :: rest := by
  rw [skipSpace, h, if_neg Bool.false_ne_true]

/-- A hexadecimal digit stands for its number. -/
theorem hexValue_hexDigit {n : Nat} (h : n < 16) : hexValue (hexDigit n) = some n := by
  have hall : ∀ n < 16, hexValue (hexDigit n) = some n := by decide
  exact hall n h

/-- An escape of two characters is read back. -/
theorem parseEscape_short {entry : Char × Char} (h : entry ∈ shortEscapes) (rest : List Char) :
    parseEscape (entry.2 :: rest) = some (entry.1, rest) := by
  simp only [shortEscapes, List.mem_cons, List.not_mem_nil, or_false] at h
  rcases h with rfl | rfl | rfl | rfl | rfl | rfl | rfl <;> rfl

/-- A control character is read back by its number. -/
theorem parseEscape_control {c : Char} (h : c.toNat < 32) (rest : List Char) :
    parseEscape ('u' :: '0' :: '0' :: hexDigit (c.toNat / 16) :: hexDigit (c.toNat % 16) :: rest) =
      some (c, rest) := by
  have hhigh := hexValue_hexDigit (n := c.toNat / 16) (by omega)
  have hlow := hexValue_hexDigit (n := c.toNat % 16) (by omega)
  have hzero : hexValue '0' = some 0 := by decide
  have hvalue : ((0 * 16 + 0) * 16 + c.toNat / 16) * 16 + c.toNat % 16 = c.toNat := by omega
  simp only [parseEscape, if_pos, parseUnicode, parseHex, hzero, hhigh, hlow, Option.bind_some,
    Option.map_some, hvalue]
  rw [if_neg (by omega), if_neg (by omega), Char.ofNat_toNat]

/-- A printed character is read back, whatever follows it. -/
theorem parseChars_printChar (c : Char) (fuel : Nat) (rest : List Char) :
    parseChars (fuel + 1) (printChar c ++ rest) =
      (parseChars fuel rest).map fun out => (c :: out.1, out.2) := by
  rw [printChar]
  cases hlookup : shortEscapes.lookup c with
  | some e =>
    obtain ⟨before, after, heq, -⟩ := List.lookup_eq_some_iff.mp hlookup
    have hmem : (c, e) ∈ shortEscapes := heq ▸ List.mem_append_right before List.mem_cons_self
    have hread := parseEscape_short hmem rest
    dsimp only at hread ⊢
    rw [List.cons_append, List.cons_append, List.nil_append, parseChars,
      if_neg (by decide), if_pos rfl, hread]
    rfl
  | none =>
    have hplain := List.lookup_eq_none_iff.mp hlookup
    have hquote : c ≠ '"' := by simpa using hplain ('"', '"') (by simp [shortEscapes])
    have hslash : c ≠ '\\' := by simpa using hplain ('\\', '\\') (by simp [shortEscapes])
    dsimp only
    split
    · rename_i hcontrol
      have hread := parseEscape_control hcontrol rest
      simp only [List.cons_append, List.nil_append]
      rw [parseChars, if_neg (by decide), if_pos rfl, hread]
      rfl
    · rename_i hcontrol
      rw [List.cons_append, List.nil_append, parseChars, if_neg hquote, if_neg hslash,
        if_neg hcontrol]

/-- Every character is printed with at least one character. -/
theorem length_printChar_pos (c : Char) : 0 < (printChar c).length := by
  rw [printChar]
  split
  · exact Nat.zero_lt_succ _
  · split <;> exact Nat.zero_lt_succ _

/-- A printed string is read back up to its closing quote. -/
theorem parseChars_printString (s : List Char) (fuel : Nat)
    (hfuel : (s.flatMap printChar).length < fuel) (rest : List Char) :
    parseChars fuel (s.flatMap printChar ++ '"' :: rest) = some (s, rest) := by
  induction s generalizing fuel with
  | nil =>
    obtain ⟨fuel, rfl⟩ : ∃ f, fuel = f + 1 := ⟨fuel - 1, by omega⟩
    rfl
  | cons c s ih =>
    obtain ⟨fuel, rfl⟩ : ∃ f, fuel = f + 1 := ⟨fuel - 1, by omega⟩
    have hpos := length_printChar_pos c
    rw [List.flatMap_cons, List.length_append] at hfuel
    rw [List.flatMap_cons, List.append_assoc, parseChars_printChar, ih fuel (by omega)]
    rfl

mutual

/-- Numbers are texts of numbers. -/
def Value.WellFormed : Value → Prop
  | .null | .bool _ | .string _ => True
  | .number text => (∀ c ∈ text, isNumberChar c = true) ∧ isNumber text = true
  | .array items => WellFormedItems items
  | .object entries => WellFormedEntries entries

/-- All items of an array are well formed. -/
def WellFormedItems : List Value → Prop
  | [] => True
  | v :: rest => v.WellFormed ∧ WellFormedItems rest

/-- All values of an object are well formed. -/
def WellFormedEntries : List (List Char × Value) → Prop
  | [] => True
  | (_, v) :: rest => v.WellFormed ∧ WellFormedEntries rest

end

/-- What follows does not continue a number. -/
def Delimited (rest : List Char) : Prop := ∀ c ∈ rest.head?, isNumberChar c = false

/-- The end of the input ends a number. -/
theorem delimited_nil : Delimited [] := by simp [Delimited]

/-- A character that belongs to no number ends one. -/
theorem delimited_cons {c : Char} (h : isNumberChar c = false) (rest : List Char) :
    Delimited (c :: rest) := by
  simpa [Delimited] using h

/-- A number is read back when what follows does not continue it. -/
theorem parseNumber_append {text rest : List Char} (hchars : ∀ c ∈ text, isNumberChar c = true)
    (hnumber : isNumber text = true) (hrest : Delimited rest) :
    parseNumber (text ++ rest) = some (.number text, rest) := by
  have hstop : rest.takeWhile isNumberChar = [] ∧ rest.dropWhile isNumberChar = rest := by
    cases rest with
    | nil => exact ⟨rfl, rfl⟩
    | cons c rest =>
      have hc : isNumberChar c = false := hrest c rfl
      exact ⟨List.takeWhile_cons_of_neg (by simp [hc]), List.dropWhile_cons_of_neg (by simp [hc])⟩
  rw [parseNumber, List.takeWhile_append_of_pos hchars, List.dropWhile_append_of_pos hchars,
    hstop.1, hstop.2, List.append_nil, if_pos hnumber]

/-- The characters that a value may start with. -/
def StartsValue (c : Char) : Prop :=
  isSpace c = false ∧ c ≠ ']' ∧ c ≠ '}'

/-- A number starts a value, and no other value starts like a number. -/
theorem startsValue_of_isNumberChar {c : Char} (h : isNumberChar c = true) :
    StartsValue c ∧ c ≠ '"' ∧ c ≠ '[' ∧ c ≠ '{' ∧ c ≠ 'n' ∧ c ≠ 't' ∧ c ≠ 'f' := by
  have hspace : isSpace c = false := by
    by_contra hs
    rw [Bool.not_eq_false] at hs
    simp only [isSpace, Bool.or_eq_true, beq_iff_eq] at hs
    rcases hs with ((rfl | rfl) | rfl) | rfl <;> exact absurd h (by decide)
  refine ⟨⟨hspace, ?_, ?_⟩, ?_, ?_, ?_, ?_, ?_, ?_⟩ <;> rintro rfl <;> exact absurd h (by decide)

/-- The text of a number has a first character. -/
theorem exists_cons_of_isNumber {text : List Char} (h : isNumber text = true) :
    ∃ c rest, text = c :: rest := by
  cases text with
  | nil => exact absurd h (by decide)
  | cons c rest => exact ⟨c, rest, rfl⟩

/-- A printed value starts like a value. -/
theorem print_eq_cons {v : Value} (hv : v.WellFormed) :
    ∃ c rest, print v = c :: rest ∧ StartsValue c := by
  have hstart : ∀ c ∈ ['n', 't', 'f', '"', '[', '{'], StartsValue c := by
    intro c hc
    simp only [List.mem_cons, List.not_mem_nil, or_false] at hc
    rcases hc with rfl | rfl | rfl | rfl | rfl | rfl <;>
      exact ⟨by decide, by decide, by decide⟩
  cases v with
  | null => exact ⟨'n', _, rfl, hstart _ (by simp)⟩
  | bool b =>
    cases b with
    | false => exact ⟨'f', _, rfl, hstart _ (by simp)⟩
    | true => exact ⟨'t', _, rfl, hstart _ (by simp)⟩
  | number text =>
    obtain ⟨c, rest, rfl⟩ := exists_cons_of_isNumber hv.2
    exact ⟨c, rest, rfl, (startsValue_of_isNumberChar (hv.1 c List.mem_cons_self)).1⟩
  | string s => exact ⟨'"', _, rfl, hstart _ (by simp)⟩
  | array items => exact ⟨'[', _, rfl, hstart _ (by simp)⟩
  | object entries => exact ⟨'{', _, rfl, hstart _ (by simp)⟩

/-- Every value is printed with at least one character. -/
theorem length_print_pos {v : Value} (hv : v.WellFormed) : 0 < (print v).length := by
  obtain ⟨c, rest, heq, -⟩ := print_eq_cons hv
  rw [heq]
  exact Nat.zero_lt_succ _

/-- No whitespace stands before a printed value. -/
theorem skipSpace_print {v : Value} (hv : v.WellFormed) (rest : List Char) :
    skipSpace (print v ++ rest) = print v ++ rest := by
  obtain ⟨c, text, heq, hc, -⟩ := print_eq_cons hv
  rw [heq, List.cons_append, skipSpace_cons hc]

/-- A printed key is read back with its colon. -/
theorem parseKey_printString (k : List Char) (fuel : Nat)
    (hfuel : (k.flatMap printChar).length < fuel) (rest : List Char) :
    parseKey fuel (printString k ++ ':' :: rest) = some (k, rest) := by
  have hread := parseChars_printString k fuel hfuel (':' :: rest)
  rw [printString, List.cons_append, List.append_assoc, parseKey, skipSpace_cons (by decide),
    List.singleton_append]
  simp only [hread, Option.bind_some]
  rw [skipSpace_cons (by decide)]
  rfl

/-- The first item is followed by a comma if there are more. -/
theorem printItems_eq_append {v : Value} (items : List Value) :
    printItems (v :: items) =
      print v ++ if items = [] then [] else ',' :: printItems items := by
  cases items with
  | nil => simp [printItems]
  | cons w items => rw [printItems, if_neg (List.cons_ne_nil w items)]

/-- The first entry is followed by a comma if there are more. -/
theorem printEntries_eq_append {k : List Char} {v : Value} (entries : List (List Char × Value)) :
    printEntries ((k, v) :: entries) =
      printString k ++ ':' ::
        (print v ++ if entries = [] then [] else ',' :: printEntries entries) := by
  cases entries with
  | nil => simp [printEntries]
  | cons e entries => rw [printEntries, if_neg (List.cons_ne_nil e entries)]

/-- A printed string has quotes around its characters. -/
theorem length_printString (k : List Char) :
    (printString k).length = (k.flatMap printChar).length + 2 := by
  rw [printString, List.length_cons, List.length_append, List.length_singleton]

mutual

/-- A well formed value is read back, if what follows does not go on with a number. -/
theorem parseValue_print (v : Value) (hv : v.WellFormed) (fuel : Nat)
    (hfuel : (print v).length < fuel) (rest : List Char) (hrest : Delimited rest) :
    parseValue fuel (print v ++ rest) = some (v, rest) := by
  obtain ⟨fuel, rfl⟩ : ∃ f, fuel = f + 1 := ⟨fuel - 1, by omega⟩
  rw [parseValue, skipSpace_print hv]
  match v with
  | .null => rfl
  | .bool b => cases b <;> rfl
  | .number text =>
    obtain ⟨c, text, rfl⟩ := exists_cons_of_isNumber hv.2
    obtain ⟨-, h1, h2, h3, h4, h5, h6⟩ :=
      startsValue_of_isNumberChar (hv.1 c List.mem_cons_self)
    rw [print, List.cons_append]
    simp only [h1, h2, h3, h4, h5, h6, if_false]
    exact parseNumber_append hv.1 hv.2 hrest
  | .string s =>
    have hlen : (s.flatMap printChar).length < fuel := by
      rw [print, length_printString] at hfuel
      omega
    rw [print, printString, List.cons_append, List.append_assoc, List.singleton_append]
    simp only [if_pos, parseChars_printString s fuel hlen rest]
    rfl
  | .array [] => rfl
  | .array (v :: items) =>
    have hlen : (printItems (v :: items)).length + 1 < fuel := by
      simp only [print, List.length_cons, List.length_append, List.length_nil] at hfuel
      omega
    have hread := parseItems_printItems (v :: items) (List.cons_ne_nil v items) hv fuel hlen rest
    obtain ⟨c, text, heq, hc, hne, -⟩ := print_eq_cons hv.1
    have hopen : (skipSpace (printItems (v :: items) ++ ']' :: rest)).head? ≠ some ']' := by
      rw [printItems_eq_append, heq, List.cons_append, List.cons_append, skipSpace_cons hc]
      simpa using hne
    rw [print, List.cons_append, List.append_assoc, List.singleton_append]
    simp only [show ('[' = '"') = False by decide, if_false, if_pos]
    rw [if_neg hopen, hread]
    rfl
  | .object [] => rfl
  | .object ((k, v) :: entries) =>
    have hlen : (printEntries ((k, v) :: entries)).length + 1 < fuel := by
      simp only [print, List.length_cons, List.length_append, List.length_nil] at hfuel
      omega
    have hread :=
      parseEntries_printEntries ((k, v) :: entries) (List.cons_ne_nil _ _) hv fuel hlen rest
    have hopen :
        (skipSpace (printEntries ((k, v) :: entries) ++ '}' :: rest)).head? ≠ some '}' := by
      rw [printEntries_eq_append, printString, List.cons_append, List.cons_append,
        skipSpace_cons (by decide)]
      simp
    rw [print, List.cons_append, List.append_assoc, List.singleton_append]
    simp only [show ('{' = '"') = False by decide, show ('{' = '[') = False by decide, if_false,
      if_pos]
    rw [if_neg hopen, hread]
    rfl

/-- The items of an array are read back up to its end. -/
theorem parseItems_printItems (items : List Value) (hne : items ≠ [])
    (hitems : WellFormedItems items) (fuel : Nat) (hfuel : (printItems items).length + 1 < fuel)
    (rest : List Char) :
    parseItems fuel (printItems items ++ ']' :: rest) = some (items, rest) := by
  obtain ⟨fuel, rfl⟩ : ∃ f, fuel = f + 1 := ⟨fuel - 1, by omega⟩
  match items with
  | [] => contradiction
  | [v] =>
    have hfirst := parseValue_print v hitems.1 fuel (by simp only [printItems] at hfuel; omega)
      (']' :: rest) (delimited_cons (by decide) _)
    rw [printItems, parseItems, hfirst]
    rfl
  | v :: w :: items =>
    have hpos := length_print_pos hitems.1
    simp only [printItems, List.length_append, List.length_cons] at hfuel
    have hfirst := parseValue_print v hitems.1 fuel (by omega)
      (',' :: (printItems (w :: items) ++ ']' :: rest)) (delimited_cons (by decide) _)
    have hothers := parseItems_printItems (w :: items) (List.cons_ne_nil w items) hitems.2 fuel
      (by omega) rest
    rw [printItems, List.append_assoc, List.cons_append, parseItems, hfirst, Option.bind_some,
      skipSpace_cons (by decide)]
    change (parseItems fuel _).map (fun out => (v :: out.1, out.2)) = _
    rw [hothers]
    rfl

/-- The entries of an object are read back up to its end. -/
theorem parseEntries_printEntries (entries : List (List Char × Value)) (hne : entries ≠ [])
    (hentries : WellFormedEntries entries) (fuel : Nat)
    (hfuel : (printEntries entries).length + 1 < fuel) (rest : List Char) :
    parseEntries fuel (printEntries entries ++ '}' :: rest) = some (entries, rest) := by
  obtain ⟨fuel, rfl⟩ : ∃ f, fuel = f + 1 := ⟨fuel - 1, by omega⟩
  match entries with
  | [] => contradiction
  | [(k, v)] =>
    simp only [printEntries, List.length_append, List.length_cons, length_printString] at hfuel
    have hkey := parseKey_printString k fuel (by omega) (print v ++ '}' :: rest)
    have hfirst := parseValue_print v hentries.1 fuel (by omega) ('}' :: rest)
      (delimited_cons (by decide) _)
    rw [printEntries, List.append_assoc, List.cons_append, parseEntries, hkey, Option.bind_some,
      hfirst]
    rfl
  | (k, v) :: e :: entries =>
    have hpos := length_print_pos hentries.1
    simp only [printEntries, List.length_append, List.length_cons, length_printString] at hfuel
    have hkey := parseKey_printString k fuel (by omega)
      (print v ++ ',' :: (printEntries (e :: entries) ++ '}' :: rest))
    have hfirst := parseValue_print v hentries.1 fuel (by omega)
      (',' :: (printEntries (e :: entries) ++ '}' :: rest)) (delimited_cons (by decide) _)
    have hothers := parseEntries_printEntries (e :: entries) (List.cons_ne_nil e entries) hentries.2
      fuel (by omega) rest
    rw [printEntries, List.append_assoc, List.cons_append, List.append_assoc, List.cons_append,
      parseEntries, hkey, Option.bind_some, hfirst, Option.bind_some, skipSpace_cons (by decide)]
    change (parseEntries fuel _).map (fun out => ((k, v) :: out.1, out.2)) = _
    rw [hothers]
    rfl

end

/-- A printed value is read back, also with whitespace behind it. -/
theorem parse_print_append {v : Value} (hv : v.WellFormed) {space : List Char}
    (hspace : skipSpace space = []) (hrest : Delimited space) :
    parse (print v ++ space) = some v := by
  have hread := parseValue_print v hv ((print v ++ space).length + 1)
    (by rw [List.length_append]; omega) space hrest
  rw [parse, hread, Option.bind_some, if_pos hspace]

/-- A well formed value is read back. -/
theorem parse_print {v : Value} (hv : v.WellFormed) : parse (print v) = some v := by
  have h : parse (print v ++ []) = some v := parse_print_append hv rfl delimited_nil
  rwa [List.append_nil] at h

/-! ## Prints have no line breaks -/

/-- No character is printed with a line break. -/
theorem newline_notMem_printChar (c : Char) : '\n' ∉ printChar c := by
  have hdigit : ∀ n < 16, hexDigit n ≠ '\n' := by decide
  rw [printChar]
  cases hlookup : shortEscapes.lookup c with
  | some e =>
    obtain ⟨before, after, heq, -⟩ := List.lookup_eq_some_iff.mp hlookup
    have hmem : (c, e) ∈ shortEscapes := heq ▸ List.mem_append_right before List.mem_cons_self
    have hall : ∀ entry ∈ shortEscapes, entry.2 ≠ '\n' := by simp [shortEscapes]
    simpa [eq_comm] using hall _ hmem
  | none =>
    have hplain := List.lookup_eq_none_iff.mp hlookup
    have hnewline : c ≠ '\n' := by simpa using hplain ('\n', 'n') (by simp [shortEscapes])
    dsimp only
    split
    · simp [Ne.symm (hdigit (c.toNat / 16) (by omega)), Ne.symm (hdigit (c.toNat % 16) (by omega))]
    · simpa using hnewline.symm

/-- No string is printed with a line break. -/
theorem newline_notMem_printString (s : List Char) : '\n' ∉ printString s := by
  simp only [printString, List.mem_cons, List.mem_append, List.mem_flatMap, List.not_mem_nil,
    or_false, not_or, not_exists, not_and]
  exact ⟨by decide, fun c _ => newline_notMem_printChar c, by decide⟩

mutual

/-- A printed value is one line. -/
theorem newline_notMem_print (v : Value) (hv : v.WellFormed) : '\n' ∉ print v := by
  match v with
  | .null => decide
  | .bool b => cases b <;> decide
  | .number text => exact fun h => absurd (hv.1 _ h) (by decide)
  | .string s => exact newline_notMem_printString s
  | .array items =>
    have hitems := newline_notMem_printItems items hv
    simpa [print] using hitems
  | .object entries =>
    have hentries := newline_notMem_printEntries entries hv
    simpa [print] using hentries

/-- No array is printed with a line break. -/
theorem newline_notMem_printItems (items : List Value) (hitems : WellFormedItems items) :
    '\n' ∉ printItems items := by
  match items with
  | [] => simp [printItems]
  | [v] => exact newline_notMem_print v hitems.1
  | v :: w :: items =>
    have hfirst := newline_notMem_print v hitems.1
    have hothers := newline_notMem_printItems (w :: items) hitems.2
    simp [printItems, hfirst, hothers]

/-- No object is printed with a line break. -/
theorem newline_notMem_printEntries (entries : List (List Char × Value))
    (hentries : WellFormedEntries entries) : '\n' ∉ printEntries entries := by
  match entries with
  | [] => simp [printEntries]
  | [(k, v)] =>
    have hkey := newline_notMem_printString k
    have hfirst := newline_notMem_print v hentries.1
    simp [printEntries, hkey, hfirst]
  | (k, v) :: e :: entries =>
    have hkey := newline_notMem_printString k
    have hfirst := newline_notMem_print v hentries.1
    have hothers := newline_notMem_printEntries (e :: entries) hentries.2
    simp [printEntries, hkey, hfirst, hothers]

end

/-! ## A text that was cut off

What is read from the beginning of a text is read from the whole text as well, unless it is a
number that the text goes on with. -/

/-- More input follows what is left behind the spaces. -/
theorem skipSpace_append {input : List Char} (h : skipSpace input ≠ []) (more : List Char) :
    skipSpace (input ++ more) = skipSpace input ++ more := by
  induction input with
  | nil => exact absurd rfl h
  | cons c rest ih =>
    rw [List.cons_append, skipSpace, skipSpace]
    rw [skipSpace] at h
    split
    · rename_i hc
      rw [if_pos hc] at h
      exact ih h
    · rfl

/-- A hexadecimal number that was read is read with more input too. -/
theorem parseHex_append {input rest : List Char} {n : Nat} (h : parseHex input = some (n, rest))
    (more : List Char) : parseHex (input ++ more) = some (n, rest ++ more) := by
  match input, h with
  | a :: b :: c :: d :: tail, h =>
    simp only [parseHex, Option.bind_eq_some_iff, Option.map_eq_some_iff, Prod.mk.injEq] at h
    obtain ⟨a', ha, b', hb, c', hc, d', hd, rfl, rfl⟩ := h
    simp [parseHex, ha, hb, hc, hd]

/-- The second half of a surrogate pair that was read is read with more input too. -/
theorem parseLow_append {high : Nat} {input rest : List Char} {c : Char}
    (h : parseLow high input = some (c, rest)) (more : List Char) :
    parseLow high (input ++ more) = some (c, rest ++ more) := by
  unfold parseLow at h
  split at h
  · rename_i tail
    obtain ⟨⟨n, rest'⟩, hhex, h⟩ := Option.bind_eq_some_iff.mp h
    rw [List.cons_append, List.cons_append, parseLow, parseHex_append hhex, Option.bind_some]
    split at h
    · rename_i hlow
      simp only [Option.some.injEq, Prod.mk.injEq] at h
      obtain ⟨rfl, rfl⟩ := h
      rw [if_pos hlow]
    · contradiction
  · contradiction

/-- An escaped code point that was read is read with more input too. -/
theorem parseUnicode_append {input rest : List Char} {c : Char}
    (h : parseUnicode input = some (c, rest)) (more : List Char) :
    parseUnicode (input ++ more) = some (c, rest ++ more) := by
  obtain ⟨⟨n, tail⟩, hhex, h⟩ := Option.bind_eq_some_iff.mp h
  rw [parseUnicode, parseHex_append hhex, Option.bind_some]
  split at h
  · rename_i hhigh
    rw [if_pos hhigh]
    exact parseLow_append h more
  · rename_i hhigh
    rw [if_neg hhigh]
    split at h
    · contradiction
    · rename_i hlow
      simp only [Option.some.injEq, Prod.mk.injEq] at h
      obtain ⟨rfl, rfl⟩ := h
      rw [if_neg hlow]

/-- An escape that was read is read with more input too. -/
theorem parseEscape_append {input rest : List Char} {c : Char}
    (h : parseEscape input = some (c, rest)) (more : List Char) :
    parseEscape (input ++ more) = some (c, rest ++ more) := by
  cases input with
  | nil => contradiction
  | cons e tail =>
    rw [parseEscape] at h
    rw [List.cons_append, parseEscape]
    split at h
    · rename_i he
      rw [if_pos he]
      exact parseUnicode_append h more
    · rename_i he
      rw [if_neg he]
      split at h
      · rename_i hslash
        simp only [Option.some.injEq, Prod.mk.injEq] at h
        obtain ⟨rfl, rfl⟩ := h
        rw [if_pos hslash]
      · rename_i hslash
        obtain ⟨entry, hentry, h⟩ := Option.map_eq_some_iff.mp h
        simp only [Prod.mk.injEq] at h
        obtain ⟨rfl, rfl⟩ := h
        rw [if_neg hslash, hentry, Option.map_some]

/-- The characters of a string that were read are read with more input too. -/
theorem parseChars_append {fuel : Nat} {input s rest : List Char}
    (h : parseChars fuel input = some (s, rest)) {fuel' : Nat} (hfuel : fuel ≤ fuel')
    (more : List Char) : parseChars fuel' (input ++ more) = some (s, rest ++ more) := by
  induction fuel generalizing input s fuel' with
  | zero => contradiction
  | succ fuel ih =>
    obtain ⟨fuel', rfl⟩ : ∃ f, fuel' = f + 1 := ⟨fuel' - 1, by omega⟩
    have hle : fuel ≤ fuel' := by omega
    cases input with
    | nil => contradiction
    | cons c tail =>
      rw [parseChars] at h
      rw [List.cons_append, parseChars]
      split at h
      · rename_i hquote
        simp only [Option.some.injEq, Prod.mk.injEq] at h
        obtain ⟨rfl, rfl⟩ := h
        rw [if_pos hquote]
      · rename_i hquote
        rw [if_neg hquote]
        split at h
        · rename_i hslash
          obtain ⟨⟨c', tail'⟩, hescape, h⟩ := Option.bind_eq_some_iff.mp h
          obtain ⟨⟨s', rest'⟩, hchars, h⟩ := Option.map_eq_some_iff.mp h
          simp only [Prod.mk.injEq] at h
          obtain ⟨rfl, rfl⟩ := h
          rw [if_pos hslash, parseEscape_append hescape, Option.bind_some, ih hchars hle,
            Option.map_some]
        · rename_i hslash
          rw [if_neg hslash]
          split at h
          · contradiction
          · rename_i hcontrol
            obtain ⟨⟨s', rest'⟩, hchars, h⟩ := Option.map_eq_some_iff.mp h
            simp only [Prod.mk.injEq] at h
            obtain ⟨rfl, rfl⟩ := h
            rw [if_neg hcontrol, ih hchars hle, Option.map_some]

/-- A word that was read is read with more input too. -/
theorem parseWord_append {word input rest : List Char} {v w : Value}
    (h : parseWord word w input = some (v, rest)) (more : List Char) :
    parseWord word w (input ++ more) = some (v, rest ++ more) := by
  rw [parseWord] at h
  split at h
  · rename_i hpre
    obtain ⟨tail, rfl⟩ := List.isPrefixOf_iff_prefix.mp hpre
    simp only [Option.some.injEq, Prod.mk.injEq, List.drop_left] at h
    obtain ⟨rfl, rfl⟩ := h
    have hwhole : word.isPrefixOf (word ++ (tail ++ more)) = true :=
      List.isPrefixOf_iff_prefix.mpr (List.prefix_append word _)
    rw [List.append_assoc, parseWord, if_pos hwhole, List.drop_left]
  · contradiction

/-- Characters that were taken up to one that does not belong are taken again. -/
theorem takeWhile_append_of_dropWhile_ne_nil {p : Char → Bool} {input : List Char}
    (h : input.dropWhile p ≠ []) (more : List Char) :
    (input ++ more).takeWhile p = input.takeWhile p ∧
      (input ++ more).dropWhile p = input.dropWhile p ++ more := by
  induction input with
  | nil => exact absurd rfl h
  | cons c rest ih =>
    rw [List.cons_append, List.takeWhile_cons, List.takeWhile_cons, List.dropWhile_cons,
      List.dropWhile_cons]
    rw [List.dropWhile_cons] at h
    split
    · rename_i hc
      rw [if_pos hc] at h
      exact ⟨by rw [(ih h).1], (ih h).2⟩
    · exact ⟨rfl, rfl⟩

/-- What a reader of numbers returns is a number. -/
theorem exists_number_of_parseNumber {input rest : List Char} {v : Value}
    (h : parseNumber input = some (v, rest)) :
    (∃ text, v = .number text) ∧ rest = input.dropWhile isNumberChar := by
  rw [parseNumber] at h
  split at h
  · simp only [Option.some.injEq, Prod.mk.injEq] at h
    exact ⟨⟨_, h.1.symm⟩, h.2.symm⟩
  · contradiction

/-- A number that ended before something else ends there with more input too. -/
theorem parseNumber_append_of_ne_nil {input rest : List Char} {v : Value}
    (h : parseNumber input = some (v, rest)) (hrest : rest ≠ []) (more : List Char) :
    parseNumber (input ++ more) = some (v, rest ++ more) := by
  obtain ⟨-, rfl⟩ := exists_number_of_parseNumber h
  obtain ⟨htake, hdrop⟩ := takeWhile_append_of_dropWhile_ne_nil hrest more
  rw [parseNumber] at h ⊢
  rw [htake, hdrop]
  split at h
  · rename_i hnumber
    simp only [Option.some.injEq, Prod.mk.injEq] at h
    rw [if_pos hnumber, h.1]
  · contradiction

/-- A key that was read is read with more input too. -/
theorem parseKey_append {fuel : Nat} {input k rest : List Char}
    (h : parseKey fuel input = some (k, rest)) {fuel' : Nat} (hfuel : fuel ≤ fuel')
    (more : List Char) : parseKey fuel' (input ++ more) = some (k, rest ++ more) := by
  rw [parseKey] at h
  split at h
  · rename_i tail hquote
    obtain ⟨⟨k', tail'⟩, hchars, h⟩ := Option.bind_eq_some_iff.mp h
    split at h
    · rename_i tail'' hcolon
      simp only [Option.some.injEq, Prod.mk.injEq] at h
      obtain ⟨rfl, rfl⟩ := h
      rw [parseKey, skipSpace_append (by rw [hquote]; simp), hquote, List.cons_append]
      simp only [parseChars_append hchars hfuel, Option.bind_some]
      rw [skipSpace_append (by rw [hcolon]; simp), hcolon]
      rfl
    · contradiction
  · contradiction

/-- The text after a value ends it, or it needs no end. -/
def Ended (v : Value) (rest : List Char) : Prop := rest ≠ [] ∨ ∀ text, v ≠ .number text

/-- A value has ended if something else follows. -/
theorem ended_of_skipSpace {v : Value} {rest tail : List Char} {c : Char}
    (h : skipSpace rest = c :: tail) : Ended v rest := by
  refine .inl ?_
  rintro rfl
  exact absurd h (by simp [skipSpace])

/-- What three readers with this fuel take, readers with more fuel take from a longer text. -/
def Extends (fuel : Nat) : Prop :=
  (∀ input v rest, parseValue fuel input = some (v, rest) → Ended v rest →
    ∀ fuel' ≥ fuel, ∀ more, parseValue fuel' (input ++ more) = some (v, rest ++ more)) ∧
  (∀ input items rest, parseItems fuel input = some (items, rest) →
    ∀ fuel' ≥ fuel, ∀ more, parseItems fuel' (input ++ more) = some (items, rest ++ more)) ∧
  ∀ input entries rest, parseEntries fuel input = some (entries, rest) →
    ∀ fuel' ≥ fuel, ∀ more, parseEntries fuel' (input ++ more) = some (entries, rest ++ more)

/-- The start of an array or an object looks the same in a longer text. -/
theorem head?_skipSpace_append {input tail : List Char} {c : Char}
    (h : skipSpace input = c :: tail) (more : List Char) :
    (skipSpace (input ++ more)).head? = some c ∧
      (skipSpace (input ++ more)).tail = tail ++ more := by
  rw [skipSpace_append (by rw [h]; simp), h]
  exact ⟨rfl, rfl⟩

/-- Items are read only where something is. -/
theorem skipSpace_ne_nil_of_parseItems {fuel : Nat} {input rest : List Char} {items : List Value}
    (h : parseItems fuel input = some (items, rest)) : skipSpace input ≠ [] := by
  intro hnil
  match fuel, h with
  | fuel + 1, h =>
    obtain ⟨first, hfirst, -⟩ := Option.bind_eq_some_iff.mp h
    match fuel, hfirst with
    | fuel + 1, hfirst => simp [parseValue, hnil] at hfirst

/-- Entries are read only where something is. -/
theorem skipSpace_ne_nil_of_parseEntries {fuel : Nat} {input rest : List Char}
    {entries : List (List Char × Value)} (h : parseEntries fuel input = some (entries, rest)) :
    skipSpace input ≠ [] := by
  intro hnil
  match fuel, h with
  | fuel + 1, h =>
    obtain ⟨key, hkey, -⟩ := Option.bind_eq_some_iff.mp h
    simp [parseKey, hnil] at hkey

/-- A value that has ended is read with more input too, if its parts are. -/
theorem parseValue_extends {fuel : Nat} (ih : Extends fuel) {input rest : List Char} {v : Value}
    (h : parseValue (fuel + 1) input = some (v, rest)) (hend : Ended v rest) {fuel' : Nat}
    (hfuel : fuel ≤ fuel') (more : List Char) :
    parseValue (fuel' + 1) (input ++ more) = some (v, rest ++ more) := by
  rw [parseValue] at h
  split at h
  · contradiction
  · rename_i c tail hskip
    rw [parseValue, skipSpace_append (by rw [hskip]; simp), hskip, List.cons_append]
    dsimp only
    by_cases hquote : c = '"'
    · rw [if_pos hquote] at h ⊢
      obtain ⟨⟨s, rest'⟩, hchars, h⟩ := Option.map_eq_some_iff.mp h
      simp only [Prod.mk.injEq] at h
      obtain ⟨rfl, rfl⟩ := h
      rw [parseChars_append hchars hfuel, Option.map_some]
    rw [if_neg hquote] at h ⊢
    by_cases hbracket : c = '['
    · rw [if_pos hbracket] at h ⊢
      by_cases hclose : (skipSpace tail).head? = some ']'
      · obtain ⟨tail', htail⟩ := List.head?_eq_some_iff.mp hclose
        obtain ⟨hhead, hrest⟩ := head?_skipSpace_append htail more
        rw [if_pos hclose, htail] at h
        simp only [Option.some.injEq, Prod.mk.injEq, List.tail_cons] at h
        obtain ⟨rfl, rfl⟩ := h
        rw [if_pos hhead, hrest]
      · rw [if_neg hclose] at h
        obtain ⟨⟨items, rest'⟩, hitems, h⟩ := Option.map_eq_some_iff.mp h
        simp only [Prod.mk.injEq] at h
        obtain ⟨rfl, rfl⟩ := h
        have hne := skipSpace_ne_nil_of_parseItems hitems
        rw [skipSpace_append hne, List.head?_append_of_ne_nil _ hne, if_neg hclose,
          ih.2.1 _ _ _ hitems fuel' hfuel more, Option.map_some]
    rw [if_neg hbracket] at h ⊢
    by_cases hbrace : c = '{'
    · rw [if_pos hbrace] at h ⊢
      by_cases hclose : (skipSpace tail).head? = some '}'
      · obtain ⟨tail', htail⟩ := List.head?_eq_some_iff.mp hclose
        obtain ⟨hhead, hrest⟩ := head?_skipSpace_append htail more
        rw [if_pos hclose, htail] at h
        simp only [Option.some.injEq, Prod.mk.injEq, List.tail_cons] at h
        obtain ⟨rfl, rfl⟩ := h
        rw [if_pos hhead, hrest]
      · rw [if_neg hclose] at h
        obtain ⟨⟨entries, rest'⟩, hentries, h⟩ := Option.map_eq_some_iff.mp h
        simp only [Prod.mk.injEq] at h
        obtain ⟨rfl, rfl⟩ := h
        have hne := skipSpace_ne_nil_of_parseEntries hentries
        rw [skipSpace_append hne, List.head?_append_of_ne_nil _ hne, if_neg hclose,
          ih.2.2 _ _ _ hentries fuel' hfuel more, Option.map_some]
    rw [if_neg hbrace] at h ⊢
    rw [← List.cons_append]
    by_cases hn : c = 'n'
    · rw [if_pos hn] at h ⊢
      exact parseWord_append h more
    rw [if_neg hn] at h ⊢
    by_cases ht : c = 't'
    · rw [if_pos ht] at h ⊢
      exact parseWord_append h more
    rw [if_neg ht] at h ⊢
    by_cases hf : c = 'f'
    · rw [if_pos hf] at h ⊢
      exact parseWord_append h more
    rw [if_neg hf] at h ⊢
    obtain ⟨text, rfl⟩ := (exists_number_of_parseNumber h).1
    exact parseNumber_append_of_ne_nil h (hend.resolve_right fun hne => hne text rfl) more

/-- Items that were read are read with more input too, if values are. -/
theorem parseItems_extends {fuel : Nat} (ih : Extends fuel) {input rest : List Char}
    {items : List Value} (h : parseItems (fuel + 1) input = some (items, rest)) {fuel' : Nat}
    (hfuel : fuel ≤ fuel') (more : List Char) :
    parseItems (fuel' + 1) (input ++ more) = some (items, rest ++ more) := by
  rw [parseItems] at h
  obtain ⟨⟨v, tail⟩, hfirst, h⟩ := Option.bind_eq_some_iff.mp h
  split at h
  · rename_i tail' hskip
    obtain ⟨⟨items', rest'⟩, hothers, h⟩ := Option.map_eq_some_iff.mp h
    simp only [Prod.mk.injEq] at h
    obtain ⟨rfl, rfl⟩ := h
    rw [parseItems, ih.1 _ _ _ hfirst (ended_of_skipSpace hskip) fuel' hfuel more,
      Option.bind_some, skipSpace_append (by rw [hskip]; simp), hskip]
    change (parseItems fuel' (tail' ++ more)).map (fun out => (v :: out.1, out.2)) = _
    rw [ih.2.1 _ _ _ hothers fuel' hfuel more, Option.map_some]
  · rename_i tail' hskip
    simp only [Option.some.injEq, Prod.mk.injEq] at h
    obtain ⟨rfl, rfl⟩ := h
    rw [parseItems, ih.1 _ _ _ hfirst (ended_of_skipSpace hskip) fuel' hfuel more,
      Option.bind_some, skipSpace_append (by rw [hskip]; simp), hskip]
    rfl
  · contradiction

/-- Entries that were read are read with more input too, if values are. -/
theorem parseEntries_extends {fuel : Nat} (ih : Extends fuel) {input rest : List Char}
    {entries : List (List Char × Value)}
    (h : parseEntries (fuel + 1) input = some (entries, rest)) {fuel' : Nat}
    (hfuel : fuel ≤ fuel') (more : List Char) :
    parseEntries (fuel' + 1) (input ++ more) = some (entries, rest ++ more) := by
  rw [parseEntries] at h
  obtain ⟨⟨k, middle⟩, hkey, h⟩ := Option.bind_eq_some_iff.mp h
  obtain ⟨⟨v, tail⟩, hfirst, h⟩ := Option.bind_eq_some_iff.mp h
  split at h
  · rename_i tail' hskip
    obtain ⟨⟨entries', rest'⟩, hothers, h⟩ := Option.map_eq_some_iff.mp h
    simp only [Prod.mk.injEq] at h
    obtain ⟨rfl, rfl⟩ := h
    rw [parseEntries, parseKey_append hkey hfuel, Option.bind_some,
      ih.1 _ _ _ hfirst (ended_of_skipSpace hskip) fuel' hfuel more,
      Option.bind_some, skipSpace_append (by rw [hskip]; simp), hskip]
    change (parseEntries fuel' (tail' ++ more)).map (fun out => ((k, v) :: out.1, out.2)) = _
    rw [ih.2.2 _ _ _ hothers fuel' hfuel more, Option.map_some]
  · rename_i tail' hskip
    simp only [Option.some.injEq, Prod.mk.injEq] at h
    obtain ⟨rfl, rfl⟩ := h
    rw [parseEntries, parseKey_append hkey hfuel, Option.bind_some,
      ih.1 _ _ _ hfirst (ended_of_skipSpace hskip) fuel' hfuel more,
      Option.bind_some, skipSpace_append (by rw [hskip]; simp), hskip]
    rfl
  · contradiction

/-- By induction on the fuel, more input changes nothing that has ended. -/
theorem extends_all (fuel : Nat) : Extends fuel := by
  induction fuel with
  | zero =>
    refine ⟨?_, ?_, ?_⟩
    · intro input v rest h
      simp [parseValue] at h
    · intro input items rest h
      simp [parseItems] at h
    · intro input entries rest h
      simp [parseEntries] at h
  | succ fuel ih =>
    have hsucc : ∀ fuel' ≥ fuel + 1, ∃ f, fuel' = f + 1 ∧ fuel ≤ f := fun fuel' hle =>
      ⟨fuel' - 1, by omega, by omega⟩
    refine ⟨?_, ?_, ?_⟩
    · intro input v rest h hend fuel' hle more
      obtain ⟨f, rfl, hf⟩ := hsucc fuel' hle
      exact parseValue_extends ih h hend hf more
    · intro input items rest h fuel' hle more
      obtain ⟨f, rfl, hf⟩ := hsucc fuel' hle
      exact parseItems_extends ih h hf more
    · intro input entries rest h fuel' hle more
      obtain ⟨f, rfl, hf⟩ := hsucc fuel' hle
      exact parseEntries_extends ih h hf more

/-- What starts with a brace is read as an object. -/
theorem exists_object_of_parseValue {fuel : Nat} {input rest : List Char} {v : Value}
    (h : parseValue fuel ('{' :: input) = some (v, rest)) : ∃ entries, v = .object entries := by
  match fuel, h with
  | fuel + 1, h =>
    rw [parseValue, skipSpace_cons (by decide)] at h
    simp only [show ('{' = '"') = False by decide, show ('{' = '[') = False by decide, if_false,
      if_pos] at h
    split at h
    · simp only [Option.some.injEq, Prod.mk.injEq] at h
      exact ⟨[], h.1.symm⟩
    · obtain ⟨⟨entries, rest'⟩, -, h⟩ := Option.map_eq_some_iff.mp h
      simp only [Prod.mk.injEq] at h
      exact ⟨entries, h.1.symm⟩

/-- The beginning of a printed object is no text of a value. -/
theorem parse_eq_none_of_cut {entries : List (List Char × Value)}
    (hv : (Value.object entries).WellFormed) {text rest : List Char}
    (h : print (.object entries) = text ++ rest) (hne : rest ≠ []) : parse text = none := by
  by_contra hsome
  obtain ⟨w, hw⟩ := Option.ne_none_iff_exists'.mp hsome
  obtain ⟨⟨w', tail⟩, hread, -⟩ := Option.bind_eq_some_iff.mp hw
  cases text with
  | nil => simp [parseValue, skipSpace] at hread
  | cons c text =>
    have hc : c = '{' := by
      rw [print, List.cons_append] at h
      exact (List.head_eq_of_cons_eq h).symm
    subst hc
    obtain ⟨entries', rfl⟩ := exists_object_of_parseValue hread
    have hlonger := (extends_all _).1 _ _ _ hread (.inr fun _ => by simp)
      ((print (.object entries)).length + 1) (by rw [h, List.length_append]; omega) rest
    have hwhole := parseValue_print (.object entries) hv _ (Nat.lt_succ_self _) [] delimited_nil
    rw [← h] at hlonger
    rw [List.append_nil, hlonger, Option.some.injEq, Prod.mk.injEq] at hwhole
    exact hne (List.append_eq_nil_iff.mp hwhole.2).2

end Bqti.Core.Json
