import Mathlib.Algebra.Order.Ring.Int
import Mathlib.Data.Nat.Basic
import Mathlib.Data.List.Infix
import Mathlib.Tactic.Common

/-!
# Socket addresses as text

The texts that the standard library writes for socket addresses, and its parser. An address of the
fourth version stands before its port as it is; one of the sixth version stands in brackets there,
since it has colons of its own. Without the brackets it is not the text of a socket address.
-/

namespace Bqti.Core.Net

/-- Four octets. -/
structure Ipv4Addr where
  a : UInt8
  b : UInt8
  c : UInt8
  d : UInt8
  deriving DecidableEq, Repr

/-- The octets of a word, the highest first. -/
def Ipv4Addr.ofU32 (ip : UInt32) : Ipv4Addr :=
  ⟨(ip >>> 24).toUInt8, (ip >>> 16).toUInt8, (ip >>> 8).toUInt8, ip.toUInt8⟩

/-- Different numbers are different addresses. -/
theorem Ipv4Addr.ofU32_injective : Function.Injective Ipv4Addr.ofU32 := by
  intro m n h
  obtain ⟨ha, hb, hc, hd⟩ := Ipv4Addr.mk.inj h
  have hm := m.toNat_lt
  have hn := n.toNat_lt
  replace ha := congrArg UInt8.toNat ha
  replace hb := congrArg UInt8.toNat hb
  replace hc := congrArg UInt8.toNat hc
  replace hd := congrArg UInt8.toNat hd
  simp [Nat.shiftRight_eq_div_pow] at ha hb hc hd
  apply UInt32.toNat_inj.mp
  omega

/-- Eight segments. -/
structure Ipv6Addr where
  segments : Vector UInt16 8
  deriving DecidableEq, Repr

/-- An IPv4 address with a port. -/
structure SocketAddrV4 where
  ip : Ipv4Addr
  port : UInt16
  deriving DecidableEq, Repr

/-- An IPv6 address with a port, a flow label and a scope. -/
structure SocketAddrV6 where
  ip : Ipv6Addr
  port : UInt16
  flowinfo : UInt32
  scopeId : UInt32
  deriving DecidableEq, Repr

/-- An address of an internet socket. -/
inductive SocketAddr
  | v4 (addr : SocketAddrV4)
  | v6 (addr : SocketAddrV6)
  deriving DecidableEq, Repr

/-! ## Writing -/

/-- A number in decimal. -/
def decimal (n : Nat) : List Char := Nat.toDigits 10 n

/-- A number in hexadecimal, with small letters. -/
def lowerHex (n : Nat) : List Char := Nat.toDigits 16 n

/-- Four decimal numbers with dots between them. -/
def Ipv4Addr.display (ip : Ipv4Addr) : List Char :=
  decimal ip.a.toNat ++ '.' :: decimal ip.b.toNat ++ '.' :: decimal ip.c.toNat ++
    '.' :: decimal ip.d.toNat

/-- Segments with colons between them. -/
def fmtSubslice : List UInt16 → List Char
  | [] => []
  | [first] => lowerHex first.toNat
  | first :: tail => lowerHex first.toNat ++ ':' :: fmtSubslice tail

/-- The start and the length of the first of the longest runs of zeros; `index` is the index of the
next segment, `current` the run that ends before it. -/
def zeroRun (index : Nat) (longest current : Nat × Nat) : List UInt16 → Nat × Nat
  | [] => longest
  | segment :: rest =>
      if segment = 0 then
        let current := if current.2 = 0 then (index, 1) else (current.1, current.2 + 1)
        zeroRun (index + 1) (if longest.2 < current.2 then current else longest) current rest
      else zeroRun (index + 1) longest (0, 0) rest

/-- The address of the fourth version that is mapped to an address of the sixth. -/
def Ipv6Addr.toIpv4Mapped (ip : Ipv6Addr) : Option Ipv4Addr :=
  if ip.segments.toList.take 6 = [0, 0, 0, 0, 0, 0xffff] then
    some ⟨(ip.segments[6] >>> 8).toUInt8, ip.segments[6].toUInt8,
      (ip.segments[7] >>> 8).toUInt8, ip.segments[7].toUInt8⟩
  else none

/-- A mapped IPv4 address is shown as such; otherwise the longest run of zero groups is left out if
it is longer than one. -/
def Ipv6Addr.display (ip : Ipv6Addr) : List Char :=
  match ip.toIpv4Mapped with
  | some ipv4 => [':', ':', 'f', 'f', 'f', 'f', ':'] ++ ipv4.display
  | none =>
      let segments := ip.segments.toList
      let zeroes := zeroRun 0 (0, 0) (0, 0) segments
      if 1 < zeroes.2 then
        fmtSubslice (segments.take zeroes.1) ++ ':' :: ':' ::
          fmtSubslice (segments.drop (zeroes.1 + zeroes.2))
      else fmtSubslice segments

/-- An address with its port. An IPv6 address stands in brackets, with its scope unless that is
zero. -/
def SocketAddr.display : SocketAddr → List Char
  | .v4 addr => addr.ip.display ++ ':' :: decimal addr.port.toNat
  | .v6 addr =>
      if addr.scopeId = 0 then
        '[' :: addr.ip.display ++ ']' :: ':' :: decimal addr.port.toNat
      else
        '[' :: addr.ip.display ++ '%' :: decimal addr.scopeId.toNat ++
          ']' :: ':' :: decimal addr.port.toNat

/-- The text of the address without the port. -/
def SocketAddr.displayIp : SocketAddr → List Char
  | .v4 addr => addr.ip.display
  | .v6 addr => addr.ip.display

/-- The port of an address. -/
def SocketAddr.port : SocketAddr → UInt16
  | .v4 addr => addr.port
  | .v6 addr => addr.port

/-- Whether an address is an IPv6 address. -/
def SocketAddr.isIpv6 : SocketAddr → Bool
  | .v4 _ => false
  | .v6 _ => true

/-! ## Reading -/

/-- The value of a digit. -/
def toDigit (radix : Nat) (c : Char) : Option Nat :=
  if c.isDigit then (if c.toNat - 48 < radix then some (c.toNat - 48) else none)
  else if 'a' ≤ c ∧ c ≤ 'z' then
    (if c.toNat - 97 + 10 < radix then some (c.toNat - 97 + 10) else none)
  else if 'A' ≤ c ∧ c ≤ 'Z' then
    (if c.toNat - 65 + 10 < radix then some (c.toNat - 65 + 10) else none)
  else none

/-- Read the digits in front: their value after that of the digits before them, their number with
those before them, and the rest. -/
def readDigits (radix : Nat) : List Char → Nat → Nat → Nat × Nat × List Char
  | [], value, count => (value, count, [])
  | c :: cs, value, count =>
      match toDigit radix c with
      | some digit => readDigits radix cs (radix * value + digit) (count + 1)
      | none => (value, count, c :: cs)

/-- Read a number below a bound, with at most so many digits. -/
def readNumber (radix bound : Nat) (maxDigits : Option Nat) (allowZeroPrefix : Bool)
    (text : List Char) : Option (Nat × List Char) :=
  let (value, count, rest) := readDigits radix text 0 0
  if count = 0 then none
  else if maxDigits.any (· < count) then none
  else if allowZeroPrefix = false ∧ text.head? = some '0' ∧ 1 < count then none
  else if value < bound then some (value, rest)
  else none

/-- Read one character that is given. -/
def readGivenChar (target : Char) : List Char → Option (List Char)
  | [] => none
  | c :: rest => if c = target then some rest else none

/-- Read an octet in decimal. -/
def readOctet (text : List Char) : Option (UInt8 × List Char) :=
  (readNumber 10 256 (some 3) false text).map fun (n, rest) => (UInt8.ofNat n, rest)

/-- Read four numbers with dots between them. -/
def readIpv4Addr (text : List Char) : Option (Ipv4Addr × List Char) := do
  let (a, text) ← readOctet text
  let (b, text) ← (readGivenChar '.' text).bind readOctet
  let (c, text) ← (readGivenChar '.' text).bind readOctet
  let (d, text) ← (readGivenChar '.' text).bind readOctet
  return (⟨a, b, c, d⟩, text)

/-- Every group but the first has a colon before it. -/
def readSeparator (first : Bool) (text : List Char) : Option (List Char) :=
  if first then some text else readGivenChar ':' text

/-- Read groups as long as there are any and there is room for them; the last two may be written as
an address of the fourth version. Says whether they are. -/
def readGroups : Nat → Bool → List Char → List UInt16 × Bool × List Char
  | 0, _, text => ([], false, text)
  | room + 1, first, text =>
      match if 0 < room then (readSeparator first text).bind readIpv4Addr else none with
      | some (ip, rest) =>
          ([ip.a.toUInt16 <<< 8 ||| ip.b.toUInt16, ip.c.toUInt16 <<< 8 ||| ip.d.toUInt16],
            true, rest)
      | none =>
          match (readSeparator first text).bind (readNumber 16 65536 (some 4) true) with
          | some (group, rest) =>
              let (groups, ipv4, rest) := readGroups room false rest
              (UInt16.ofNat group :: groups, ipv4, rest)
          | none => ([], false, text)

/-- Read eight groups, or fewer on both sides of a double colon. -/
def readIpv6Addr (text : List Char) : Option (Ipv6Addr × List Char) :=
  let address (groups : List UInt16) : Ipv6Addr := ⟨Vector.ofFn fun i => groups.getD i 0⟩
  let (head, headIpv4, text) := readGroups 8 true text
  if head.length = 8 then some (address head, text)
  else if headIpv4 then none
  else do
    let text ← (readGivenChar ':' text).bind (readGivenChar ':')
    let (tail, _, text) := readGroups (7 - head.length) true text
    return (address (head ++ List.replicate (8 - head.length - tail.length) 0 ++ tail), text)

/-- Read a colon and a port. -/
def readPort (text : List Char) : Option (UInt16 × List Char) :=
  ((readGivenChar ':' text).bind (readNumber 10 65536 none true)).map fun (n, rest) =>
    (UInt16.ofNat n, rest)

/-- Read a percent sign and a scope. -/
def readScopeId (text : List Char) : Option (UInt32 × List Char) :=
  ((readGivenChar '%' text).bind (readNumber 10 (2 ^ 32) none true)).map fun (n, rest) =>
    (UInt32.ofNat n, rest)

/-- Read an IPv4 address with its port. -/
def readSocketAddrV4 (text : List Char) : Option (SocketAddrV4 × List Char) := do
  let (ip, text) ← readIpv4Addr text
  let (port, text) ← readPort text
  return (⟨ip, port⟩, text)

/-- Read an IPv6 address in brackets with its port. -/
def readSocketAddrV6 (text : List Char) : Option (SocketAddrV6 × List Char) := do
  let text ← readGivenChar '[' text
  let (ip, text) ← readIpv6Addr text
  let (scopeId, text) := (readScopeId text).getD (0, text)
  let text ← readGivenChar ']' text
  let (port, text) ← readPort text
  return (⟨ip, port, 0, scopeId⟩, text)

/-- Read an IPv4 address with its port, or else an IPv6 address. -/
def readSocketAddr (text : List Char) : Option (SocketAddr × List Char) :=
  match readSocketAddrV4 text with
  | some (addr, rest) => some (.v4 addr, rest)
  | none => (readSocketAddrV6 text).map fun (addr, rest) => (.v6 addr, rest)

/-- The whole text has to be the address. -/
def parseSocketAddr (text : List Char) : Option SocketAddr :=
  match readSocketAddr text with
  | some (addr, []) => some addr
  | _ => none

/-! ## Numbers -/

/-- What comes next is not a decimal digit. -/
def Ends (rest : List Char) : Prop := ∀ c ∈ rest.head?, c.isDigit = false

/-- The end of a text ends a number. -/
theorem ends_nil : Ends [] := by simp [Ends]

/-- A character that is no digit ends a number. -/
theorem ends_cons {c : Char} (hc : c.isDigit = false) (rest : List Char) : Ends (c :: rest) := by
  simpa [Ends] using hc

/-- A decimal digit stands for its number. -/
theorem toDigit_of_isDigit {c : Char} (hc : c.isDigit = true) :
    toDigit 10 c = some (c.toNat - '0'.toNat) := by
  have hle : c.toNat ≤ 57 := (Char.isDigit_iff_toNat.mp hc).2
  have hlt : c.toNat - 48 < 10 := by omega
  rw [toDigit, if_pos hc, if_pos hlt]
  rfl

/-- Only digits stand for numbers. -/
theorem toDigit_eq_none {c : Char} (hc : c.isDigit = false) : toDigit 10 c = none := by
  rw [toDigit, if_neg (by simp [hc])]
  split
  · rw [if_neg (by omega)]
  · split
    · rw [if_neg (by omega)]
    · rfl

/-- The digits in front are read up to the first character that is none. -/
theorem readDigits_append {digits rest : List Char} (hdigits : ∀ c ∈ digits, c.isDigit = true)
    (hrest : Ends rest) (value count : Nat) :
    readDigits 10 (digits ++ rest) value count =
      (Nat.ofDigitChars 10 digits value, count + digits.length, rest) := by
  induction digits generalizing value count with
  | nil =>
    match rest, hrest with
    | [], _ => rfl
    | c :: rest, hrest =>
      have hc : c.isDigit = false := hrest c rfl
      rw [List.nil_append, readDigits, toDigit_eq_none hc]
      rfl
  | cons c digits ih =>
    obtain ⟨hc, hdigits⟩ := List.forall_mem_cons.mp hdigits
    rw [List.cons_append, readDigits, toDigit_of_isDigit hc]
    simp only
    rw [ih hdigits, Nat.ofDigitChars_cons, List.length_cons, Nat.add_right_comm, Nat.add_assoc]

/-- A decimal numeral has digits only. -/
theorem isDigit_of_mem_decimal {n : Nat} {c : Char} (hc : c ∈ decimal n) : c.isDigit = true :=
  Nat.isDigit_of_mem_toDigits (by decide) (by decide) hc

/-- Only zero begins with the digit zero. -/
theorem eq_zero_of_head_decimal {n : Nat} (h : (decimal n).head? = some '0') : n = 0 := by
  induction n using Nat.strong_induction_on with
  | _ n ih =>
    rw [decimal, Nat.toDigits_eq_if (by decide)] at h
    split at h
    · simpa using h
    · rename_i hlarge
      rw [List.head?_append_of_ne_nil _ Nat.toDigits_ne_nil] at h
      have hzero := ih (n / 10) (by omega) h
      omega

/-- A number that is written in decimal is read back. -/
theorem readNumber_decimal {n bound : Nat} {maxDigits : Option Nat} {rest : List Char}
    (hn : n < bound) (hmax : ∀ m ∈ maxDigits, (decimal n).length ≤ m) (hrest : Ends rest)
    (allowZeroPrefix : Bool) :
    readNumber 10 bound maxDigits allowZeroPrefix (decimal n ++ rest) = some (n, rest) := by
  have hread : readDigits 10 (decimal n ++ rest) 0 0 = (n, (decimal n).length, rest) := by
    rw [readDigits_append (fun c hc => isDigit_of_mem_decimal hc) hrest, Nat.zero_add, decimal,
      Nat.ofDigitChars_ten_toDigits]
  have hcount : (decimal n).length ≠ 0 := Nat.ne_of_gt Nat.length_toDigits_pos
  have hfew : ¬ maxDigits.any (· < (decimal n).length) = true := by
    cases maxDigits with
    | none => simp
    | some m => simpa using hmax m rfl
  have hzero : ¬ (allowZeroPrefix = false ∧ (decimal n ++ rest).head? = some '0' ∧
      1 < (decimal n).length) := by
    rintro ⟨-, hhead, hlong⟩
    have hne : decimal n ≠ [] := Nat.toDigits_ne_nil
    rw [List.head?_append_of_ne_nil _ hne] at hhead
    rw [eq_zero_of_head_decimal hhead] at hlong
    exact absurd hlong (by decide)
  simp only [readNumber, hread]
  rw [if_neg hcount, if_neg hfew, if_neg hzero, if_pos hn]

/-- A byte has at most three digits. -/
theorem length_decimal_octet (n : UInt8) : (decimal n.toNat).length ≤ 3 :=
  (Nat.length_toDigits_le_iff (by decide) (by decide)).mpr (by have hlt := n.toNat_lt; omega)

/-- A number of an IPv4 address is read back. -/
theorem readOctet_decimal (n : UInt8) {rest : List Char} (hrest : Ends rest) :
    readOctet (decimal n.toNat ++ rest) = some (n, rest) := by
  have hmax : ∀ m ∈ some 3, (decimal n.toNat).length ≤ m := by
    simpa using length_decimal_octet n
  rw [readOctet, readNumber_decimal n.toNat_lt hmax hrest, Option.map_some]
  simp only [UInt8.ofNat_toNat]

/-- A port is read back. -/
theorem readPort_decimal (n : UInt16) : readPort (':' :: decimal n.toNat) = some (n, []) := by
  have hread : readNumber 10 65536 none true (decimal n.toNat ++ []) = some (n.toNat, []) :=
    readNumber_decimal n.toNat_lt (by simp) ends_nil true
  rw [List.append_nil] at hread
  rw [readPort, readGivenChar, if_pos rfl, Option.bind_some, hread, Option.map_some]
  simp only [UInt16.ofNat_toNat]

/-! ## Addresses of the fourth version -/

/-- An IPv4 address is read back. -/
theorem readIpv4Addr_display (ip : Ipv4Addr) {rest : List Char} (hrest : Ends rest) :
    readIpv4Addr (ip.display ++ rest) = some (ip, rest) := by
  have hdot : ∀ text : List Char, Ends ('.' :: text) := ends_cons (by decide)
  have hskip : ∀ text : List Char, readGivenChar '.' ('.' :: text) = some text := by
    intro text
    rw [readGivenChar, if_pos rfl]
  simp only [readIpv4Addr, Ipv4Addr.display, List.append_assoc, List.cons_append,
    readOctet_decimal _ (hdot _), hskip, Option.bind_eq_bind, Option.bind_some,
    readOctet_decimal _ hrest, Option.pure_def]

/-- The text of an address of the fourth version is read back. -/
theorem parseSocketAddr_v4 (addr : SocketAddrV4) :
    parseSocketAddr (SocketAddr.v4 addr).display = some (.v4 addr) := by
  have hport := readPort_decimal addr.port
  have hcolon : Ends (':' :: decimal addr.port.toNat) := ends_cons (by decide) _
  have hip := readIpv4Addr_display addr.ip hcolon
  simp only [parseSocketAddr, readSocketAddr, SocketAddr.display, readSocketAddrV4, hip,
    Option.bind_eq_bind, Option.bind_some, hport, Option.pure_def]

/-- An IPv4 address has at most 15 characters. -/
theorem Ipv4Addr.length_display (ip : Ipv4Addr) : ip.display.length ≤ 15 := by
  have ha := length_decimal_octet ip.a
  have hb := length_decimal_octet ip.b
  have hc := length_decimal_octet ip.c
  have hd := length_decimal_octet ip.d
  simp only [display, List.length_append, List.length_cons]
  omega

/-! ## Addresses of the sixth version -/

/-- The digits of numbers in hexadecimal. -/
def hexChars : List Char := "0123456789abcdef".toList

/-- Numerals have hexadecimal characters only. -/
theorem mem_hexChars_of_mem_toDigits {b n : Nat} {c : Char} (hb : 1 < b) (hle : b ≤ 16)
    (hc : c ∈ Nat.toDigits b n) : c ∈ hexChars := by
  have hdigit : ∀ d < 16, Nat.digitChar d ∈ hexChars := by decide
  induction n using Nat.strong_induction_on with
  | _ n ih =>
    rw [Nat.toDigits_eq_if hb] at hc
    split at hc
    · rename_i hlt
      rw [List.mem_singleton] at hc
      exact hc ▸ hdigit n (by omega)
    · rename_i hge
      rcases List.mem_append.mp hc with hc | hc
      · exact ih (n / b) (Nat.div_lt_self (by omega) hb) hc
      · rw [List.mem_singleton] at hc
        have hlt := Nat.mod_lt n (by omega : 0 < b)
        exact hc ▸ hdigit (n % b) (by omega)

/-- Segments before a colon begin with a number up to the next colon. -/
theorem fmtSubslice_colon (segments : List UInt16) (rest : List Char) :
    ∃ number tail, (∀ c ∈ number, c ∈ hexChars) ∧
      fmtSubslice segments ++ ':' :: rest = number ++ ':' :: tail := by
  have hhex : ∀ n : UInt16, ∀ c ∈ lowerHex n.toNat, c ∈ hexChars := fun n c hc =>
    mem_hexChars_of_mem_toDigits (by decide) (by decide) hc
  match segments with
  | [] => exact ⟨[], rest, by simp, rfl⟩
  | [first] => exact ⟨lowerHex first.toNat, rest, hhex first, rfl⟩
  | first :: second :: segments =>
    refine ⟨lowerHex first.toNat, fmtSubslice (second :: segments) ++ ':' :: rest, hhex first, ?_⟩
    rw [fmtSubslice, List.append_assoc, List.cons_append]
    simp

/-- So does the text of an address of the sixth version, and before a colon it has a colon. -/
theorem Ipv6Addr.display_colon (ip : Ipv6Addr) (rest : List Char) :
    ∃ number tail, (∀ c ∈ number, c ∈ hexChars) ∧
      ip.display ++ ':' :: rest = number ++ ':' :: tail := by
  rw [Ipv6Addr.display]
  split
  · exact ⟨[], _, by simp, rfl⟩
  · simp only
    split
    · rw [List.append_assoc, List.cons_append]
      exact fmtSubslice_colon _ _
    · exact fmtSubslice_colon _ _

/-- What is left after the digits. -/
theorem readDigits_rest (radix : Nat) (text : List Char) (value count : Nat) :
    (readDigits radix text value count).2.2 =
      text.dropWhile fun c => (toDigit radix c).isSome := by
  induction text generalizing value count with
  | nil => rfl
  | cons c text ih =>
    rw [readDigits, List.dropWhile_cons]
    cases hc : toDigit radix c with
    | none => rfl
    | some digit => exact ih _ _

/-- What is left of a number starts behind its digits. -/
theorem readNumber_rest {radix bound : Nat} {maxDigits : Option Nat} {allowZeroPrefix : Bool}
    {text rest : List Char} {n : Nat}
    (h : readNumber radix bound maxDigits allowZeroPrefix text = some (n, rest)) :
    rest = text.dropWhile fun c => (toDigit radix c).isSome := by
  rw [← readDigits_rest radix text 0 0]
  simp only [readNumber] at h
  split_ifs at h
  exact (Prod.mk.inj (Option.some.inj h)).2.symm

/-- Digits and a colon have no dot after the decimal digits in front. -/
theorem readGivenChar_dropWhile {number : List Char} (hnumber : ∀ c ∈ number, c ∈ hexChars)
    (tail : List Char) :
    readGivenChar '.' ((number ++ ':' :: tail).dropWhile fun c => (toDigit 10 c).isSome) =
      none := by
  induction number with
  | nil => rfl
  | cons c number ih =>
    obtain ⟨hc, hnumber⟩ := List.forall_mem_cons.mp hnumber
    rw [List.cons_append, List.dropWhile_cons]
    split
    · exact ih hnumber
    · have hdot : c ≠ '.' := by
        rintro rfl
        exact absurd hc (by decide)
      rw [readGivenChar, if_neg hdot]

/-- A number and a colon are not the start of an address of the fourth version. -/
theorem readIpv4Addr_eq_none {number : List Char} (hnumber : ∀ c ∈ number, c ∈ hexChars)
    (tail : List Char) : readIpv4Addr (number ++ ':' :: tail) = none := by
  have hdot := readGivenChar_dropWhile hnumber tail
  cases hoctet : readOctet (number ++ ':' :: tail) with
  | none => rw [readIpv4Addr, hoctet, Option.bind_eq_bind, Option.bind_none]
  | some octet =>
    obtain ⟨⟨n, rest⟩, hread, rfl⟩ := Option.map_eq_some_iff.mp hoctet
    rw [← readNumber_rest hread] at hdot
    simp only [readIpv4Addr, hoctet, Option.bind_eq_bind, Option.bind_some, hdot, Option.bind_none]

/-- Without brackets, an address of the sixth version and a port are not the text of an address. -/
theorem parseSocketAddr_v6 (addr : SocketAddrV6) :
    parseSocketAddr ((SocketAddr.v6 addr).displayIp ++ ':' :: decimal addr.port.toNat) = none := by
  obtain ⟨number, tail, hnumber, htext⟩ := addr.ip.display_colon (decimal addr.port.toNat)
  have hbracket : readGivenChar '[' (number ++ ':' :: tail) = none := by
    match number, hnumber with
    | [], _ => rfl
    | c :: number, hnumber =>
      have hc : c ≠ '[' := by
        rintro rfl
        exact absurd (hnumber _ List.mem_cons_self) (by decide)
      rw [List.cons_append, readGivenChar, if_neg hc]
  simp only [SocketAddr.displayIp, htext, parseSocketAddr, readSocketAddr, readSocketAddrV4,
    readIpv4Addr_eq_none hnumber tail, readSocketAddrV6, hbracket, Option.bind_eq_bind,
    Option.bind_none, Option.map_none]

/-- Only an address of the sixth version begins with a bracket. -/
theorem head_of_readSocketAddr {text rest : List Char} {addr : SocketAddr}
    (h : readSocketAddr text = some (addr, rest)) :
    text.head? = some '[' ↔ addr.isIpv6 = true := by
  rw [readSocketAddr] at h
  match text with
  | [] =>
    have hnone : readSocketAddr [] = none := rfl
    exact absurd (hnone.symm.trans h) (by simp)
  | c :: tail =>
    by_cases hc : c = '['
    · subst hc
      have hv4 : readSocketAddrV4 ('[' :: tail) = none := rfl
      rw [hv4] at h
      obtain ⟨read, -, heq⟩ := Option.map_eq_some_iff.mp h
      obtain ⟨rfl, -⟩ := Prod.mk.inj heq
      simp [SocketAddr.isIpv6]
    · have hv6 : readSocketAddrV6 (c :: tail) = none := by
        rw [readSocketAddrV6, readGivenChar, if_neg hc, Option.bind_eq_bind, Option.bind_none]
      rw [hv6, Option.map_none] at h
      cases hread : readSocketAddrV4 (c :: tail) with
      | none => exact absurd (hread ▸ h) (by simp)
      | some read =>
        rw [hread] at h
        obtain ⟨rfl, -⟩ := Prod.mk.inj (Option.some.inj h)
        simp [SocketAddr.isIpv6, hc]

/-- A socket address starts with a bracket if it is an IPv6 address. -/
theorem head_of_parseSocketAddr {text : List Char} {addr : SocketAddr}
    (h : parseSocketAddr text = some addr) : text.head? = some '[' ↔ addr.isIpv6 = true := by
  rw [parseSocketAddr] at h
  split at h
  · rename_i read hread
    obtain rfl := Option.some.inj h
    exact head_of_readSocketAddr hread
  · exact absurd h (by simp)

/-! ## Characters -/

/-- The characters of the texts of addresses. -/
def addrChars : List Char := "0123456789abcdef.:[]%".toList

/-- Hexadecimal characters occur in addresses. -/
theorem mem_addrChars_of_mem_hexChars {c : Char} (hc : c ∈ hexChars) : c ∈ addrChars := by
  have hall : hexChars ⊆ addrChars := by decide
  exact hall hc

/-- The digits of a decimal numeral occur in addresses. -/
theorem mem_addrChars_of_mem_decimal {n : Nat} {c : Char} (hc : c ∈ decimal n) : c ∈ addrChars :=
  mem_addrChars_of_mem_hexChars (mem_hexChars_of_mem_toDigits (by decide) (by decide) hc)

/-- The digits of a hexadecimal numeral occur in addresses. -/
theorem mem_addrChars_of_mem_lowerHex {n : Nat} {c : Char} (hc : c ∈ lowerHex n) :
    c ∈ addrChars :=
  mem_addrChars_of_mem_hexChars (mem_hexChars_of_mem_toDigits (by decide) (by decide) hc)

/-- An IPv4 address is shown with such characters only. -/
theorem Ipv4Addr.mem_addrChars {ip : Ipv4Addr} {c : Char} (hc : c ∈ ip.display) :
    c ∈ addrChars := by
  have hdot : '.' ∈ addrChars := by decide
  simp only [display, List.mem_append, List.mem_cons, or_assoc] at hc
  rcases hc with hc | rfl | hc | rfl | hc | rfl | hc
  · exact mem_addrChars_of_mem_decimal hc
  · exact hdot
  · exact mem_addrChars_of_mem_decimal hc
  · exact hdot
  · exact mem_addrChars_of_mem_decimal hc
  · exact hdot
  · exact mem_addrChars_of_mem_decimal hc

/-- Groups are shown with such characters only. -/
theorem mem_addrChars_of_mem_fmtSubslice {segments : List UInt16} {c : Char}
    (hc : c ∈ fmtSubslice segments) : c ∈ addrChars := by
  fun_induction fmtSubslice segments with
  | case1 => simp at hc
  | case2 first => exact mem_addrChars_of_mem_lowerHex hc
  | case3 first tail hne ih =>
    rcases List.mem_append.mp hc with hc | hc
    · exact mem_addrChars_of_mem_lowerHex hc
    · rcases List.mem_cons.mp hc with rfl | hc
      · decide
      · exact ih hc

/-- An IPv6 address is shown with such characters only. -/
theorem Ipv6Addr.mem_addrChars {ip : Ipv6Addr} {c : Char} (hc : c ∈ ip.display) :
    c ∈ addrChars := by
  rw [display] at hc
  split at hc
  · rcases List.mem_append.mp hc with hc | hc
    · have hmapped : [':', ':', 'f', 'f', 'f', 'f', ':'] ⊆ addrChars := by decide
      exact hmapped hc
    · exact Ipv4Addr.mem_addrChars hc
  · simp only at hc
    split at hc
    · simp only [List.mem_append, List.mem_cons] at hc
      rcases hc with hc | rfl | rfl | hc
      · exact mem_addrChars_of_mem_fmtSubslice hc
      · decide
      · decide
      · exact mem_addrChars_of_mem_fmtSubslice hc
    · exact mem_addrChars_of_mem_fmtSubslice hc

/-- The text of an address has no other characters. -/
theorem SocketAddr.mem_addrChars {addr : SocketAddr} {c : Char} (hc : c ∈ addr.display) :
    c ∈ addrChars := by
  have hmarks : ['[', ']', '%', ':'] ⊆ addrChars := by decide
  cases addr with
  | v4 addr =>
    simp only [display, List.mem_append, List.mem_cons] at hc
    rcases hc with hc | rfl | hc
    · exact Ipv4Addr.mem_addrChars hc
    · exact hmarks (by simp)
    · exact mem_addrChars_of_mem_decimal hc
  | v6 addr =>
    rw [display] at hc
    split at hc
    · simp only [List.mem_append, List.mem_cons, or_assoc] at hc
      rcases hc with rfl | hc | rfl | rfl | hc
      · exact hmarks (by simp)
      · exact Ipv6Addr.mem_addrChars hc
      · exact hmarks (by simp)
      · exact hmarks (by simp)
      · exact mem_addrChars_of_mem_decimal hc
    · simp only [List.mem_append, List.mem_cons, or_assoc] at hc
      rcases hc with rfl | hc | rfl | hc | rfl | rfl | hc
      · exact hmarks (by simp)
      · exact Ipv6Addr.mem_addrChars hc
      · exact hmarks (by simp)
      · exact mem_addrChars_of_mem_decimal hc
      · exact hmarks (by simp)
      · exact hmarks (by simp)
      · exact mem_addrChars_of_mem_decimal hc

end Bqti.Core.Net
