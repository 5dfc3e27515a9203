import Bqti.Core.NetAddr

/-!
# Socket addresses from their texts

Every address is read back from the text that is written for it, except that the flow label of an
address of the sixth version is not written. The groups on either side of the longest run of
zeros are read up to the two colons that stand for it, and the room between them is filled with
zeros again.
-/

namespace Bqti.Core.Net

/-! ## Numbers in hexadecimal -/

/-- The digits of a number are read before those that follow. -/
theorem readDigits_lowerHex (n : Nat) (rest : List Char) :
    readDigits 16 (lowerHex n ++ rest) 0 0 = readDigits 16 rest n (lowerHex n).length := by
  have hdigit : ∀ d < 16, toDigit 16 (Nat.digitChar d) = some d := by decide
  induction n using Nat.strong_induction_on generalizing rest with
  | _ n ih =>
    rw [lowerHex, Nat.toDigits_eq_if (by decide)]
    split
    · rename_i hlt
      rw [List.singleton_append, readDigits, hdigit n hlt]
      simp
    · rename_i hge
      have hpre := ih (n / 16) (by omega) (Nat.digitChar (n % 16) :: rest)
      rw [lowerHex] at hpre
      have hmod : 16 * (n / 16) + n % 16 = n := Nat.div_add_mod n 16
      rw [List.append_assoc, List.singleton_append, hpre, readDigits,
        hdigit _ (Nat.mod_lt _ (by decide))]
      simp only [hmod, List.length_append, List.length_singleton]

/-- What is no hexadecimal digit is no decimal digit. -/
theorem isDigit_eq_false {c : Char} (h : toDigit 16 c = none) : c.isDigit = false := by
  by_contra hc
  rw [Bool.not_eq_false] at hc
  have hle : c.toNat ≤ 57 := (Char.isDigit_iff_toNat.mp hc).2
  rw [toDigit, if_pos hc, if_pos (by omega)] at h
  cases h

/-- What comes next belongs to no group. -/
def Boundary (rest : List Char) : Prop := ∀ c ∈ rest.head?, toDigit 16 c = none ∧ c ≠ '.'

/-- A character that is no digit and no dot ends a group. -/
theorem boundary_cons {c : Char} (h : toDigit 16 c = none ∧ c ≠ '.') (rest : List Char) :
    Boundary (c :: rest) := by
  simpa [Boundary] using h

/-- A group has at most four digits. -/
theorem length_lowerHex_segment (n : UInt16) : (lowerHex n.toNat).length ≤ 4 :=
  (Nat.length_toDigits_le_iff (by decide) (by decide)).mpr (by have hlt := n.toNat_lt; omega)

/-- A group is read up to where it ends. -/
theorem readNumber_lowerHex (n : UInt16) {rest : List Char} (hrest : Boundary rest) :
    readNumber 16 65536 (some 4) true (lowerHex n.toNat ++ rest) = some (n.toNat, rest) := by
  have hread : readDigits 16 (lowerHex n.toNat ++ rest) 0 0 =
      (n.toNat, (lowerHex n.toNat).length, rest) := by
    rw [readDigits_lowerHex]
    match rest, hrest with
    | [], _ => rfl
    | c :: rest, hrest => rw [readDigits, (hrest c rfl).1]
  have hcount : (lowerHex n.toNat).length ≠ 0 := Nat.ne_of_gt Nat.length_toDigits_pos
  have hfew : ¬ (some 4).any (· < (lowerHex n.toNat).length) = true := by
    simpa using length_lowerHex_segment n
  simp only [readNumber, hread]
  rw [if_neg hcount, if_neg hfew, if_neg (by simp), if_pos n.toNat_lt]

/-! ## Groups -/

/-- Digits in hexadecimal are not the start of an address of the fourth version. -/
theorem readIpv4Addr_of_hex {number rest : List Char} (hnumber : ∀ c ∈ number, c ∈ hexChars)
    (hrest : Boundary rest) : readIpv4Addr (number ++ rest) = none := by
  have hdot : readGivenChar '.'
      ((number ++ rest).dropWhile fun c => (toDigit 10 c).isSome) = none := by
    induction number with
    | nil =>
      match rest, hrest with
      | [], _ => rfl
      | c :: rest, hrest =>
        obtain ⟨hdigit, hne⟩ := hrest c rfl
        have hdecimal := toDigit_eq_none (isDigit_eq_false hdigit)
        rw [List.nil_append, List.dropWhile_cons_of_neg (by simp [hdecimal]),
          readGivenChar, if_neg hne]
    | cons c number ih =>
      obtain ⟨hc, hnumber⟩ := List.forall_mem_cons.mp hnumber
      rw [List.cons_append, List.dropWhile_cons]
      split
      · exact ih hnumber
      · have hne : c ≠ '.' := by
          rintro rfl
          exact absurd hc (by decide)
        rw [readGivenChar, if_neg hne]
  cases hoctet : readOctet (number ++ rest) with
  | none => rw [readIpv4Addr, hoctet, Option.bind_eq_bind, Option.bind_none]
  | some octet =>
    obtain ⟨⟨n, tail⟩, hread, rfl⟩ := Option.map_eq_some_iff.mp hoctet
    rw [← readNumber_rest hread] at hdot
    simp only [readIpv4Addr, hoctet, Option.bind_eq_bind, Option.bind_some, hdot, Option.bind_none]

/-- No group can be read here, whether it is the first one or not. -/
def Stops (rest : List Char) : Prop := ∀ room first, readGroups room first rest = ([], false, rest)

/-- A character that is no colon and belongs to no group ends the groups. -/
theorem stops_of_boundary {c : Char} (h : toDigit 16 c = none ∧ c ≠ '.') (hcolon : c ≠ ':')
    (rest : List Char) : Stops (c :: rest) := by
  have hipv4 : readIpv4Addr ([] ++ c :: rest) = none :=
    readIpv4Addr_of_hex (by simp) (boundary_cons h rest)
  have hnumber : readNumber 16 65536 (some 4) true (c :: rest) = none := by
    rw [readNumber, readDigits, h.1]
    rfl
  rw [List.nil_append] at hipv4
  intro room first
  cases room with
  | zero => rfl
  | succ room =>
    cases first with
    | false => simp [readGroups, readSeparator, readGivenChar, hcolon]
    | true => simp [readGroups, readSeparator, hipv4, hnumber]

/-- Two colons end the groups. -/
theorem stops_colons (rest : List Char) : Stops (':' :: ':' :: rest) := by
  have hboundary : ∀ text, Boundary (':' :: text) := boundary_cons (by decide)
  have hipv4 : ∀ text, readIpv4Addr ([] ++ ':' :: text) = none := fun text =>
    readIpv4Addr_of_hex (by simp) (hboundary text)
  have hnumber : ∀ text, readNumber 16 65536 (some 4) true (':' :: text) = none := by
    intro text
    have hdigit : toDigit 16 ':' = none := by decide
    rw [readNumber, readDigits, hdigit]
    rfl
  simp only [List.nil_append] at hipv4
  intro room first
  cases room with
  | zero => rfl
  | succ room =>
    cases first <;> simp [readGroups, readSeparator, readGivenChar, hipv4, hnumber]

/-- The groups after the first one, each with its colon. -/
def fmtTail (segments : List UInt16) : List Char :=
  segments.flatMap fun segment => ':' :: lowerHex segment.toNat

/-- The first group is followed by the others, each behind a colon. -/
theorem fmtSubslice_cons (first : UInt16) (segments : List UInt16) :
    fmtSubslice (first :: segments) = lowerHex first.toNat ++ fmtTail segments := by
  induction segments generalizing first with
  | nil => simp [fmtSubslice, fmtTail]
  | cons second segments ih =>
    rw [fmtSubslice, ih second, fmtTail, fmtTail, List.flatMap_cons, List.cons_append]
    simp

/-- The digits of a group are hexadecimal characters. -/
theorem mem_hexChars_of_mem_lowerHex {n : Nat} {c : Char} (hc : c ∈ lowerHex n) : c ∈ hexChars :=
  mem_hexChars_of_mem_toDigits (by decide) (by decide) hc

/-- After the groups stands what ends a group. -/
theorem boundary_fmtTail (segments : List UInt16) {rest : List Char} (hrest : Boundary rest) :
    Boundary (fmtTail segments ++ rest) := by
  cases segments with
  | nil => exact hrest
  | cons segment segments => exact boundary_cons (by decide) _

/-- One group is read, before the others. -/
theorem readGroups_lowerHex (room : Nat) (first : Bool) (n : UInt16) {rest : List Char}
    (hrest : Boundary rest) {text : List Char}
    (hsep : readSeparator first text = some (lowerHex n.toNat ++ rest)) :
    readGroups (room + 1) first text =
      (n :: (readGroups room false rest).1, (readGroups room false rest).2) := by
  have hipv4 : readIpv4Addr (lowerHex n.toNat ++ rest) = none :=
    readIpv4Addr_of_hex (fun c hc => mem_hexChars_of_mem_lowerHex hc) hrest
  have hnumber := readNumber_lowerHex n hrest
  have hskip :
      (if 0 < room then (readSeparator first text).bind readIpv4Addr else none) = none := by
    split
    · rw [hsep, Option.bind_some, hipv4]
    · rfl
  rw [readGroups, hskip, hsep, Option.bind_some, hnumber]
  simp only [UInt16.ofNat_toNat]

/-- Groups are read up to what ends them, or as long as there is room. -/
theorem readGroups_fmtTail (segments : List UInt16) {room : Nat} (hroom : segments.length ≤ room)
    {rest : List Char} (hrest : Boundary rest) (hstop : segments.length < room → Stops rest) :
    readGroups room false (fmtTail segments ++ rest) = (segments, false, rest) := by
  induction segments generalizing room with
  | nil =>
    cases room with
    | zero => rfl
    | succ room => exact hstop (Nat.succ_pos room) _ _
  | cons segment segments ih =>
    rw [List.length_cons] at hroom hstop
    obtain ⟨room, rfl⟩ : ∃ r, room = r + 1 := ⟨room - 1, by omega⟩
    have hsep : readSeparator false (fmtTail (segment :: segments) ++ rest) =
        some (lowerHex segment.toNat ++ (fmtTail segments ++ rest)) := by
      simp [readSeparator, fmtTail, readGivenChar]
    rw [readGroups_lowerHex room false segment (boundary_fmtTail segments hrest) hsep,
      ih (by omega) fun hlt => hstop (by omega)]

/-- Groups are read back, as many as there is room for. -/
theorem readGroups_fmtSubslice (segments : List UInt16) {room : Nat}
    (hroom : segments.length ≤ room) {rest : List Char} (hrest : Boundary rest)
    (hstop : segments.length < room → Stops rest) :
    readGroups room true (fmtSubslice segments ++ rest) = (segments, false, rest) := by
  cases segments with
  | nil =>
    cases room with
    | zero => rfl
    | succ room => exact hstop (Nat.succ_pos room) _ _
  | cons segment segments =>
    rw [List.length_cons] at hroom hstop
    obtain ⟨room, rfl⟩ : ∃ r, room = r + 1 := ⟨room - 1, by omega⟩
    have hsep : readSeparator true (fmtSubslice (segment :: segments) ++ rest) =
        some (lowerHex segment.toNat ++ (fmtTail segments ++ rest)) := by
      rw [fmtSubslice_cons, List.append_assoc]
      rfl
    rw [readGroups_lowerHex room true segment (boundary_fmtTail segments hrest) hsep,
      readGroups_fmtTail segments (by omega) hrest fun hlt => hstop (by omega)]

/-! ## The run of zeros -/

/-- A run of zeros, by its start and its length. -/
def ZeroRun (segments : List UInt16) (run : Nat × Nat) : Prop :=
  ∀ i, run.1 ≤ i → i < run.1 + run.2 → segments[i]? = some 0

/-- The run of zeros that is found is one of the longest so far. -/
theorem zeroRun_spec {segments before rest : List UInt16} (h : segments = before ++ rest)
    {longest current : Nat × Nat} (hlongest : ZeroRun segments longest)
    (hcurrent : ZeroRun segments current)
    (hend : current.2 ≠ 0 → current.1 + current.2 = before.length) :
    ZeroRun segments (zeroRun before.length longest current rest) := by
  induction rest generalizing before longest current with
  | nil => exact hlongest
  | cons segment rest ih =>
    have hsplit : segments = (before ++ [segment]) ++ rest := by rw [h, List.append_assoc]; rfl
    have hlength : (before ++ [segment]).length = before.length + 1 := List.length_append
    rw [zeroRun]
    split
    · rename_i hzero
      have hhere : segments[before.length]? = some 0 := by
        rw [h, List.getElem?_append_right le_rfl, Nat.sub_self, hzero]
        rfl
      -- the current run is continued by this zero, or starts with it
      obtain ⟨next, hdef⟩ : ∃ next : Nat × Nat, next =
          if current.2 = 0 then (before.length, 1) else (current.1, current.2 + 1) := ⟨_, rfl⟩
      have hnext : ZeroRun segments next := by
        rw [hdef]
        split
        · intro i hlo hhi
          obtain rfl : i = before.length := by
            simp only at hlo hhi
            omega
          exact hhere
        · rename_i hne
          intro i hlo hhi
          simp only at hlo hhi
          have hstart := hend hne
          by_cases hi : i = before.length
          · rw [hi, hhere]
          · exact hcurrent i hlo (by omega)
      have hnextEnd : next.1 + next.2 = (before ++ [segment]).length := by
        rw [hdef, hlength]
        split
        · rfl
        · rename_i hne
          have hstart := hend hne
          dsimp only
          omega
      rw [← hlength]
      simp only [← hdef]
      refine ih hsplit ?_ hnext fun _ => hnextEnd
      split
      · exact hnext
      · exact hlongest
    · rw [← hlength]
      refine ih hsplit hlongest ?_ fun hne => absurd rfl hne
      intro i hlo hhi
      simp only at hhi
      omega

/-- The run of zeros that is found is a run of the address. -/
theorem zeroRun_segments (segments : List UInt16) :
    ZeroRun segments (zeroRun 0 (0, 0) (0, 0) segments) := by
  have hempty : ZeroRun segments (0, 0) := by
    intro i hlo hhi
    simp only at hhi
    omega
  exact @zeroRun_spec segments [] segments rfl _ _ hempty hempty fun hne => absurd rfl hne

/-- Leaving out a run of zeros and filling it in again. -/
theorem fill_zeroRun {segments : List UInt16} {start length : Nat}
    (h : ZeroRun segments (start, length)) (hpos : 0 < length) :
    start + length ≤ segments.length ∧
      segments.take start ++ List.replicate length 0 ++ segments.drop (start + length) =
        segments := by
  have hlast := h (start + length - 1) (by simp only; omega) (by simp only; omega)
  have hlt := (List.getElem?_eq_some_iff.mp hlast).1
  have hle : start + length ≤ segments.length := by omega
  refine ⟨hle, ?_⟩
  have hmiddle : (segments.drop start).take length = List.replicate length 0 := by
    refine List.ext_getElem? fun i => ?_
    rw [List.getElem?_take, List.getElem?_replicate]
    split
    · rename_i hi
      rw [List.getElem?_drop]
      exact h (start + i) (by simp only; omega) (by simp only; omega)
    · rfl
  rw [← hmiddle, List.append_assoc, ← List.drop_drop, List.take_append_drop, List.take_append_drop]

/-! ## Addresses -/

/-- The address of eight groups. -/
theorem ofFn_segments (ip : Ipv6Addr) :
    (⟨Vector.ofFn fun i => ip.segments.toList.getD i 0⟩ : Ipv6Addr) = ip := by
  obtain ⟨segments⟩ := ip
  congr 1
  refine Vector.ext fun i hi => ?_
  rw [Vector.getElem_ofFn, List.getD_eq_getElem?_getD, Vector.getElem?_toList,
    Vector.getElem?_eq_getElem hi, Option.getD_some]

/-- The two octets of a segment. -/
theorem ofOctets_segment (n : UInt16) :
    (n >>> 8).toUInt8.toUInt16 <<< 8 ||| n.toUInt8.toUInt16 = n := by
  have hlt := n.toNat_lt
  apply UInt16.toNat_inj.mp
  have hor : (n.toNat / 256) <<< 8 ||| n.toNat % 256 = (n.toNat / 256) <<< 8 + n.toNat % 256 :=
    (Nat.shiftLeft_add_eq_or_of_lt (Nat.mod_lt _ (by decide)) _).symm
  have hhigh : n.toNat / 256 < 256 := by omega
  have hfits : (n.toNat / 256) <<< 8 < 65536 := by
    rw [Nat.shiftLeft_eq]
    omega
  simp [Nat.shiftRight_eq_div_pow, Nat.mod_eq_of_lt hhigh, Nat.mod_eq_of_lt hfits, hor]
  rw [Nat.shiftLeft_eq]
  omega

/-- What may stand after an address of the sixth version: a bracket or a percent sign. -/
def Closes (rest : List Char) : Prop := Boundary rest ∧ Stops rest

/-- A bracket closes an address. -/
theorem closes_bracket (rest : List Char) : Closes (']' :: rest) :=
  ⟨boundary_cons (by decide) rest, stops_of_boundary (by decide) (by decide) rest⟩

/-- A percent sign closes an address. -/
theorem closes_percent (rest : List Char) : Closes ('%' :: rest) :=
  ⟨boundary_cons (by decide) rest, stops_of_boundary (by decide) (by decide) rest⟩

/-- A boundary ends a number. -/
theorem ends_of_boundary {rest : List Char} (h : Boundary rest) : Ends rest :=
  fun c hc => isDigit_eq_false (h c hc).1

/-- The last two segments of a mapped address. -/
def mappedSegments (ip : Ipv4Addr) : List UInt16 :=
  [ip.a.toUInt16 <<< 8 ||| ip.b.toUInt16, ip.c.toUInt16 <<< 8 ||| ip.d.toUInt16]

/-- The segments of a mapped address. -/
theorem segments_of_mapped {ip : Ipv6Addr} {ipv4 : Ipv4Addr} (h : ip.toIpv4Mapped = some ipv4) :
    ip.segments.toList = [0, 0, 0, 0, 0, 0xffff] ++ mappedSegments ipv4 := by
  rw [Ipv6Addr.toIpv4Mapped] at h
  split at h
  · rename_i htake
    obtain rfl := Option.some.inj h
    simp only [mappedSegments, ofOctets_segment]
    have hlast : ip.segments.toList.drop 6 = [ip.segments[6], ip.segments[7]] := by
      refine List.ext_getElem (by simp) fun i hi hi' => ?_
      have hlt : i < 2 := hi'
      have hcases : i = 0 ∨ i = 1 := by omega
      rcases hcases with rfl | rfl
      · simp
      · simp
    rw [← List.take_append_drop 6 ip.segments.toList, htake, hlast]
  · cases h

/-- A mapped IPv4 address is read back. -/
theorem readIpv6Addr_mapped {ip : Ipv6Addr} {ipv4 : Ipv4Addr} (h : ip.toIpv4Mapped = some ipv4)
    {rest : List Char} (hrest : Boundary rest) :
    readIpv6Addr ([':', ':', 'f', 'f', 'f', 'f', ':'] ++ ipv4.display ++ rest) =
      some (ip, rest) := by
  have hhead : ∀ text, readGroups 8 true (':' :: ':' :: text) = ([], false, ':' :: ':' :: text) :=
    fun text => stops_colons text 8 true
  have hipv4 : readGroups 6 false (':' :: (ipv4.display ++ rest)) =
      (mappedSegments ipv4, true, rest) := by
    simp [readGroups, readSeparator, readGivenChar, mappedSegments,
      readIpv4Addr_display ipv4 (ends_of_boundary hrest)]
  have htail : readGroups 7 true ('f' :: 'f' :: 'f' :: 'f' :: ':' :: (ipv4.display ++ rest)) =
      (0xffff :: mappedSegments ipv4, true, rest) := by
    have hhex : lowerHex (0xffff : UInt16).toNat = ['f', 'f', 'f', 'f'] := by decide
    have hgroup := @readGroups_lowerHex 6 true 0xffff
      (':' :: (ipv4.display ++ rest)) (boundary_cons (by decide) _)
      ('f' :: 'f' :: 'f' :: 'f' :: ':' :: (ipv4.display ++ rest)) (by rw [hhex]; rfl)
    rw [hgroup, hipv4]
  have hsegments := ofFn_segments ip
  rw [segments_of_mapped h] at hsegments
  have htwo : (mappedSegments ipv4).length = 2 := rfl
  simp only [readIpv6Addr, List.cons_append, List.nil_append, hhead, readGivenChar, if_true,
    Option.bind_some, Option.bind_eq_bind, List.length_nil, Nat.sub_zero, htail]
  simpa [htwo] using hsegments

/-- An IPv6 address is read back. -/
theorem readIpv6Addr_display (ip : Ipv6Addr) {rest : List Char} (hrest : Closes rest) :
    readIpv6Addr (ip.display ++ rest) = some (ip, rest) := by
  have hlength : ip.segments.toList.length = 8 := ip.segments.length_toList
  have hsegments := ofFn_segments ip
  rw [Ipv6Addr.display]
  split
  · rename_i ipv4 hmapped
    exact readIpv6Addr_mapped hmapped hrest.1
  · dsimp only
    generalize ip.segments.toList = segments at hlength hsegments ⊢
    have hrun := zeroRun_segments segments
    generalize zeroRun 0 (0, 0) (0, 0) segments = run at hrun ⊢
    obtain ⟨start, length⟩ := run
    dsimp only
    split
    · -- the groups before and after the run
      rename_i hlong
      obtain ⟨hle, hfill⟩ := fill_zeroRun hrun (by omega)
      have hbefore : (segments.take start).length = start := List.length_take_of_le (by omega)
      have hafter : (segments.drop (start + length)).length = 8 - (start + length) := by
        rw [List.length_drop, hlength]
      have hhead := @readGroups_fmtSubslice (segments.take start) 8 (by omega)
        (':' :: ':' :: (fmtSubslice (segments.drop (start + length)) ++ rest))
        (boundary_cons (by decide) _) fun _ => stops_colons _
      have htail := @readGroups_fmtSubslice (segments.drop (start + length)) (7 - start)
        (by omega) rest hrest.1 fun _ => hrest.2
      have hzeros : 8 - start - (8 - (start + length)) = length := by omega
      rw [List.append_assoc, List.cons_append, List.cons_append]
      simp only [readIpv6Addr, hhead, hbefore, readGivenChar, if_true, Option.bind_some,
        Option.bind_eq_bind, htail, hafter, hzeros, hfill, hsegments]
      rw [if_neg (by omega)]
      rfl
    · have hall := @readGroups_fmtSubslice segments 8 hlength.le rest hrest.1
        fun hlt => absurd hlt (by omega)
      simp only [readIpv6Addr, hall, hlength, if_true, hsegments]

/-- A scope is read back. -/
theorem readScopeId_decimal (n : UInt32) (rest : List Char) :
    readScopeId ('%' :: decimal n.toNat ++ ']' :: rest) = some (n, ']' :: rest) := by
  have hread : readNumber 10 (2 ^ 32) none true (decimal n.toNat ++ ']' :: rest) =
      some (n.toNat, ']' :: rest) :=
    readNumber_decimal n.toNat_lt (by simp) (ends_cons (by decide) rest) true
  rw [List.cons_append, readScopeId, readGivenChar, if_pos rfl, Option.bind_some, hread,
    Option.map_some]
  simp only [UInt32.ofNat_toNat]

/-- An IPv6 address with its port is read back, without its flow label. -/
theorem readSocketAddrV6_display (addr : SocketAddrV6) (hflow : addr.flowinfo = 0) :
    readSocketAddrV6 (SocketAddr.v6 addr).display = some (addr, []) := by
  have hport := readPort_decimal addr.port
  have hopen : ∀ text, readGivenChar '[' ('[' :: text) = some text := fun _ => rfl
  have hclose : ∀ text, readGivenChar ']' (']' :: text) = some text := fun _ => rfl
  have hnoscope : ∀ text, readScopeId (']' :: text) = none := fun _ => rfl
  obtain ⟨ip, port, flowinfo, scopeId⟩ := addr
  dsimp only at hflow hport
  subst hflow
  rw [SocketAddr.display]
  split
  · rename_i hscope
    dsimp only at hscope
    subst hscope
    have hip := readIpv6Addr_display ip (closes_bracket (':' :: decimal port.toNat))
    simp only [List.cons_append, readSocketAddrV6, hopen, hip, hnoscope, hclose, hport,
      Option.bind_eq_bind, Option.bind_some, Option.getD_none, Option.pure_def]
  · have hip := readIpv6Addr_display ip
      (closes_percent (decimal scopeId.toNat ++ ']' :: ':' :: decimal port.toNat))
    have hscope := readScopeId_decimal scopeId (':' :: decimal port.toNat)
    rw [List.cons_append] at hscope
    simp only [List.cons_append, List.append_assoc, readSocketAddrV6, hopen, hip, hscope, hclose,
      hport, Option.bind_eq_bind, Option.bind_some, Option.getD_some, Option.pure_def]

/-- The flow label of an address, which is not written. -/
def SocketAddr.flowinfo : SocketAddr → UInt32
  | .v4 _ => 0
  | .v6 addr => addr.flowinfo

/-- Every address without a flow label is read back from its text. -/
theorem parseSocketAddr_display {addr : SocketAddr} (h : addr.flowinfo = 0) :
    parseSocketAddr addr.display = some addr := by
  cases addr with
  | v4 addr => exact parseSocketAddr_v4 addr
  | v6 addr =>
    have hread := readSocketAddrV6_display addr h
    have hv4 : readSocketAddrV4 (SocketAddr.v6 addr).display = none := by
      rw [SocketAddr.display]
      split <;> rfl
    rw [parseSocketAddr, readSocketAddr, hv4]
    simp only [hread, Option.map_some]

end Bqti.Core.Net
