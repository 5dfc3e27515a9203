import Mathlib.Data.List.Basic
import Mathlib.Tactic.Common
import Bqti.Core.Word

/-!
# Lines of a byte stream

A buffered reader takes a stream in the pieces in which it arrives and gives it out up to each
delimiter. What it gives out does not depend on the pieces. Of a stream of whole lines that was
cut off, the reader gives out the lines before the cut and the beginning of the next one.
-/

namespace Bqti.Core

/-! ## Texts as bytes -/

/-- The bytes of a text. -/
def encodeText (text : List Char) : Bytes := text.flatMap String.utf8EncodeChar

/-- The text that bytes stand for, if they do. -/
def decodeText (bytes : Bytes) : Option (List Char) := bytes.toByteArray.utf8Decode?.map (·.toList)

/-- A text as bytes is its UTF-8 encoding. -/
theorem toByteArray_encodeText (text : List Char) :
    (encodeText text).toByteArray = text.utf8Encode := rfl

/-- A text is read back from its bytes. -/
theorem decodeText_encodeText (text : List Char) : decodeText (encodeText text) = some text := by
  rw [decodeText, toByteArray_encodeText, List.utf8Decode?_utf8Encode, Option.map_some]

/-- A text is encoded part by part. -/
theorem encodeText_append (s t : List Char) :
    encodeText (s ++ t) = encodeText s ++ encodeText t := List.flatMap_append

/-- The bytes of one text that are the beginning of those of another are its beginning. -/
theorem prefix_of_encodeText_append {s t : List Char} {rest : Bytes}
    (h : encodeText s ++ rest = encodeText t) : ∃ more, s ++ more = t ∧ encodeText more = rest := by
  have harray : s.utf8Encode ++ rest.toByteArray = t.utf8Encode := by
    rw [← toByteArray_encodeText, ← toByteArray_encodeText, ← h, List.toByteArray_append]
  obtain ⟨more, rfl⟩ := List.isPrefix_of_utf8Encode_append_eq_utf8Encode _ harray
  refine ⟨more, rfl, ?_⟩
  rw [encodeText_append] at h
  exact (List.append_cancel_left h).symm

/-- The bytes of a text are those that it was read from. -/
theorem encodeText_of_decodeText {bytes : Bytes} {text : List Char}
    (h : decodeText bytes = some text) : encodeText text = bytes := by
  obtain ⟨chars, hchars, rfl⟩ := Option.map_eq_some_iff.mp h
  have hsome : bytes.toByteArray.utf8Decode?.isSome = true := by rw [hchars]; rfl
  have henc := ByteArray.utf8Encode_get_utf8Decode? (h := hsome)
  simp only [hchars, Option.get_some] at henc
  rw [← toByteArray_encodeText] at henc
  exact List.toByteArray_inj.mp henc

/-- The byte of a small number is a line break only for the line break. -/
theorem eq_newline_iff {n : Nat} (h : n < 256) : 10 = UInt8.ofNat n ↔ n = 10 := by
  rw [← UInt8.toNat_inj, UInt8.toNat_ofNat', Nat.mod_eq_of_lt h]
  exact eq_comm

/-- The byte of a line break belongs to no other character. -/
theorem mem_utf8EncodeChar_newline (c : Char) : 10 ∈ String.utf8EncodeChar c ↔ c = '\n' := by
  have hc : c = '\n' ↔ c.val.toNat = 10 := by
    rw [← Char.val_inj, ← UInt32.toNat_inj]
    rfl
  have hmax : c.val.toNat < 0x110000 := by
    rcases c.valid with h | h <;> omega
  rw [hc, String.utf8EncodeChar]
  split
  · rw [List.mem_singleton, eq_newline_iff (by omega)]
  · split
    · simp (disch := omega) only [List.mem_cons, List.not_mem_nil, or_false, eq_newline_iff]
      omega
    · split
      · simp (disch := omega) only [List.mem_cons, List.not_mem_nil, or_false, eq_newline_iff]
        omega
      · simp (disch := omega) only [List.mem_cons, List.not_mem_nil, or_false, eq_newline_iff]
        omega

/-- The bytes of a text hold a line break only where the text does. -/
theorem mem_encodeText_newline {text : List Char} : 10 ∈ encodeText text ↔ '\n' ∈ text := by
  simp [encodeText, mem_utf8EncodeChar_newline]

/-- A number below 256 is the number of its byte. -/
theorem toNat_ofNat_lt {n : Nat} (h : n < 256) : (UInt8.ofNat n).toNat = n := by
  rw [UInt8.toNat_ofNat', Nat.mod_eq_of_lt h]

/-- The first byte of a character, unlike the others, is not one that continues a character. -/
theorem utf8EncodeChar_eq_cons (c : Char) :
    ∃ b rest, String.utf8EncodeChar c = b :: rest ∧ (b.toNat < 0x80 ∨ 0xc0 ≤ b.toNat) ∧
      ∀ x ∈ rest, 0x80 ≤ x.toNat ∧ x.toNat < 0xc0 := by
  have hmax : c.val.toNat < 0x110000 := by
    rcases c.valid with h | h <;> omega
  rw [String.utf8EncodeChar]
  split
  · exact ⟨_, _, rfl, by rw [toNat_ofNat_lt (by omega)]; omega, by simp⟩
  · split
    · refine ⟨_, _, rfl, by rw [toNat_ofNat_lt (by omega)]; omega, ?_⟩
      simp (disch := omega) only [List.forall_mem_cons, toNat_ofNat_lt]
      exact ⟨by omega, by simp⟩
    · split
      · refine ⟨_, _, rfl, by rw [toNat_ofNat_lt (by omega)]; omega, ?_⟩
        simp (disch := omega) only [List.forall_mem_cons, toNat_ofNat_lt]
        exact ⟨by omega, by omega, by simp⟩
      · refine ⟨_, _, rfl, by rw [toNat_ofNat_lt (by omega)]; omega, ?_⟩
        simp (disch := omega) only [List.forall_mem_cons, toNat_ofNat_lt]
        exact ⟨by omega, by omega, by omega, by simp⟩

/-- A text is encoded character by character. -/
theorem encodeText_cons (c : Char) (text : List Char) :
    encodeText (c :: text) = String.utf8EncodeChar c ++ encodeText text := List.flatMap_cons

/-- Different texts have different bytes. -/
theorem encodeText_injective : Function.Injective encodeText := by
  intro s t h
  have hdecode := congrArg decodeText h
  rwa [decodeText_encodeText, decodeText_encodeText, Option.some.injEq] at hdecode

/-- The bytes of one text that are the end of those of another are its end. -/
theorem suffix_of_append_encodeText {s t : List Char} {lost : Bytes}
    (h : lost ++ encodeText s = encodeText t) : s <:+ t := by
  induction t generalizing lost with
  | nil =>
    have hs : encodeText s = encodeText [] := (List.append_eq_nil_iff.mp h).2
    exact encodeText_injective hs ▸ List.suffix_refl _
  | cons c t ih =>
    rw [encodeText_cons] at h
    rcases List.append_eq_append_iff.mp h with ⟨more, hchar, hs⟩ | ⟨more, -, ht⟩
    · obtain ⟨b, rest, heq, -, hrest⟩ := utf8EncodeChar_eq_cons c
      cases lost with
      | nil =>
        rw [← encodeText_cons] at h
        exact encodeText_injective h ▸ List.suffix_refl _
      | cons x lost =>
        rw [heq, List.cons_append, List.cons.injEq] at hchar
        cases more with
        | nil => exact encodeText_injective hs ▸ List.suffix_cons c s
        | cons y more =>
          -- A character does not begin with a byte that continues one.
          have hy := hrest y (by rw [hchar.2]; simp)
          cases s with
          | nil => contradiction
          | cons c' s =>
            obtain ⟨b', rest', heq', hb', -⟩ := utf8EncodeChar_eq_cons c'
            rw [encodeText_cons, heq', List.cons_append, List.cons_append, List.cons.injEq] at hs
            rw [hs.1] at hb'
            omega
    · exact (ih ht.symm).trans (List.suffix_cons c t)

/-! ## Reading up to a delimiter -/

/-- What stands up to the first delimiter, with it, and what follows. -/
def splitAfter (d : UInt8) : Bytes → Option (Bytes × Bytes)
  | [] => none
  | b :: rest =>
      if b = d then some ([b], rest)
      else (splitAfter d rest).map fun out => (b :: out.1, out.2)

/-- A reader, with the bytes that it has taken and not given out and the pieces that still
arrive before the end of the stream. -/
structure BufReader where
  buffer : Bytes
  source : List Bytes

/-- The bytes that a reader has yet to give out. -/
def BufReader.rest (r : BufReader) : Bytes := r.buffer ++ r.source.flatten

/-- Give out the bytes up to a delimiter, or all of them at the end of the stream. -/
def readFrom (d : UInt8) (buffer : Bytes) : List Bytes → Bytes × BufReader
  | [] =>
      match splitAfter d buffer with
      | some (line, rest) => (line, ⟨rest, []⟩)
      | none => (buffer, ⟨[], []⟩)
  | piece :: source =>
      match splitAfter d buffer with
      | some (line, rest) => (line, ⟨rest, piece :: source⟩)
      | none =>
          let out := readFrom d piece source
          (buffer ++ out.1, out.2)

/-- Read up to a delimiter, from the buffer first and then from the source. -/
def BufReader.readUntil (d : UInt8) (r : BufReader) : Bytes × BufReader :=
  readFrom d r.buffer r.source

/-- The next line of a stream that is there as a whole, and what follows it. -/
def nextLine (d : UInt8) (s : Bytes) : Bytes × Bytes := (splitAfter d s).getD (s, [])

/-- A line that was split off is split off with more input too. -/
theorem splitAfter_append_of_some {d : UInt8} {s line rest : Bytes}
    (h : splitAfter d s = some (line, rest)) (t : Bytes) :
    splitAfter d (s ++ t) = some (line, rest ++ t) := by
  induction s generalizing line with
  | nil => contradiction
  | cons b s ih =>
    rw [splitAfter] at h
    rw [List.cons_append, splitAfter]
    split at h
    · rename_i hb
      simp only [Option.some.injEq, Prod.mk.injEq] at h
      obtain ⟨rfl, rfl⟩ := h
      rw [if_pos hb]
    · rename_i hb
      obtain ⟨⟨line', rest'⟩, hs, h⟩ := Option.map_eq_some_iff.mp h
      simp only [Prod.mk.injEq] at h
      obtain ⟨rfl, rfl⟩ := h
      rw [if_neg hb, ih hs, Option.map_some]

/-- Nothing is split off where the delimiter is missing. -/
theorem splitAfter_eq_none_iff {d : UInt8} {s : Bytes} : splitAfter d s = none ↔ d ∉ s := by
  induction s with
  | nil => simp [splitAfter]
  | cons b s ih =>
    rw [splitAfter]
    split
    · rename_i hb
      simp [hb]
    · rename_i hb
      simp [ih, Ne.symm hb]

/-- A part without the delimiter belongs to the line that is split off later. -/
theorem splitAfter_append_of_none {d : UInt8} {s : Bytes} (h : d ∉ s) (t : Bytes) :
    splitAfter d (s ++ t) = (splitAfter d t).map fun out => (s ++ out.1, out.2) := by
  induction s with
  | nil => simp
  | cons b s ih =>
    rw [List.mem_cons, not_or] at h
    rw [List.cons_append, splitAfter, if_neg (Ne.symm h.1), ih h.2, Option.map_map]
    rfl

/-- A reader gives out the same whatever pieces the stream arrives in. -/
theorem readFrom_eq (d : UInt8) (buffer : Bytes) (source : List Bytes) :
    ((readFrom d buffer source).1, (readFrom d buffer source).2.rest) =
      nextLine d (buffer ++ source.flatten) := by
  induction source generalizing buffer with
  | nil =>
    rw [List.flatten_nil, List.append_nil, readFrom, nextLine]
    cases splitAfter d buffer with
    | none => rfl
    | some out => exact Prod.ext rfl (List.append_nil out.2)
  | cons piece source ih =>
    rw [readFrom, nextLine]
    cases hsplit : splitAfter d buffer with
    | some out =>
      rw [splitAfter_append_of_some hsplit]
      rfl
    | none =>
      have hrest := ih piece
      rw [List.flatten_cons, splitAfter_append_of_none (splitAfter_eq_none_iff.mp hsplit)]
      simp only [nextLine, Prod.ext_iff] at hrest ⊢
      rw [hrest.1, hrest.2]
      cases splitAfter d (piece ++ source.flatten) <;> exact ⟨rfl, rfl⟩

/-- What is read is the next line of everything that is left. -/
theorem readUntil_fst (d : UInt8) (r : BufReader) :
    (r.readUntil d).1 = (nextLine d r.rest).1 :=
  congrArg Prod.fst (readFrom_eq d r.buffer r.source)

/-- What is left is everything behind the next line. -/
theorem rest_readUntil (d : UInt8) (r : BufReader) :
    (r.readUntil d).2.rest = (nextLine d r.rest).2 :=
  congrArg Prod.snd (readFrom_eq d r.buffer r.source)

/-! ## Reading line after line -/

/-- Read lines up to the end of the stream, at most so many. -/
def BufReader.readLines (d : UInt8) : Nat → BufReader → List Bytes
  | 0, _ => []
  | fuel + 1, r =>
      let out := r.readUntil d
      if out.1 = [] then [] else out.1 :: BufReader.readLines d fuel out.2

/-- The lines of a stream that is there as a whole. -/
def splitLines (d : UInt8) : Bytes → List Bytes
  | [] => []
  | b :: rest =>
      if b = d then [b] :: splitLines d rest
      else
        match splitLines d rest with
        | [] => [[b]]
        | line :: lines => (b :: line) :: lines

/-- Without the delimiter everything is one line. -/
theorem splitLines_of_notMem {d : UInt8} {s : Bytes} (h : d ∉ s) :
    splitLines d s = if s = [] then [] else [s] := by
  induction s with
  | nil => rfl
  | cons b s ih =>
    rw [List.mem_cons, not_or] at h
    rw [splitLines, if_neg (Ne.symm h.1), ih h.2, if_neg (List.cons_ne_nil b s)]
    split
    · rename_i heq
      split at heq
      · rename_i hs
        rw [hs]
      · contradiction
    · rename_i line lines heq
      split at heq
      · contradiction
      · simp only [List.cons.injEq] at heq
        obtain ⟨rfl, rfl⟩ := heq
        rfl

/-- A whole line comes first. -/
theorem splitLines_append {d : UInt8} {line : Bytes} (h : d ∉ line) (rest : Bytes) :
    splitLines d (line ++ d :: rest) = (line ++ [d]) :: splitLines d rest := by
  induction line with
  | nil => rw [List.nil_append, splitLines, if_pos rfl, List.nil_append]
  | cons b line ih =>
    rw [List.mem_cons, not_or] at h
    rw [List.cons_append, splitLines, if_neg (Ne.symm h.1), ih h.2]
    rfl

/-- Without the delimiter the next line is everything. -/
theorem nextLine_of_notMem {d : UInt8} {s : Bytes} (h : d ∉ s) : nextLine d s = (s, []) := by
  rw [nextLine, splitAfter_eq_none_iff.mpr h, Option.getD_none]

/-- The next line ends with the first delimiter. -/
theorem nextLine_append {d : UInt8} {line : Bytes} (h : d ∉ line) (rest : Bytes) :
    nextLine d (line ++ d :: rest) = (line ++ [d], rest) := by
  rw [nextLine, splitAfter_append_of_none h, splitAfter, if_pos rfl]
  rfl

/-- With enough fuel a reader gives out the lines of the stream. -/
theorem readLines_eq {d : UInt8} {fuel : Nat} {r : BufReader} (h : r.rest.length < fuel) :
    r.readLines d fuel = splitLines d r.rest := by
  induction fuel generalizing r with
  | zero => exact absurd h (Nat.not_lt_zero _)
  | succ fuel ih =>
    have hfirst := readUntil_fst d r
    have hrest := rest_readUntil d r
    rw [BufReader.readLines]
    by_cases hmem : d ∈ r.rest
    · obtain ⟨line, rest, hr, hline⟩ := List.eq_append_cons_of_mem hmem
      rw [hr, nextLine_append hline] at hfirst hrest
      rw [hr, List.length_append, List.length_cons] at h
      have hless : (r.readUntil d).2.rest.length < fuel := by
        rw [hrest]
        dsimp only
        omega
      rw [hfirst, if_neg (by simp), ih hless, hrest, hr, splitLines_append hline]
    · rw [nextLine_of_notMem hmem] at hfirst hrest
      rw [hfirst, splitLines_of_notMem hmem]
      split
      · rfl
      · rename_i hne
        have hpos : 0 < r.rest.length := List.length_pos_iff.mpr hne
        have hless : (r.readUntil d).2.rest.length < fuel := by
          rw [hrest, List.length_nil]
          omega
        rw [ih hless, hrest]
        rfl

/-! ## Whole lines and a stream that was cut off -/

/-- Lines with their delimiters. -/
def joinLines (d : UInt8) (lines : List Bytes) : Bytes := lines.flatMap (· ++ [d])

/-- Whole lines are given out as they were written, and then what follows them. -/
theorem splitLines_joinLines {d : UInt8} {lines : List Bytes} (h : ∀ line ∈ lines, d ∉ line)
    {tail : Bytes} (htail : d ∉ tail) :
    splitLines d (joinLines d lines ++ tail) =
      lines.map (· ++ [d]) ++ if tail = [] then [] else [tail] := by
  induction lines with
  | nil => exact splitLines_of_notMem htail
  | cons line lines ih =>
    rw [List.forall_mem_cons] at h
    rw [joinLines, List.flatMap_cons, List.append_assoc, List.append_assoc, List.singleton_append,
      splitLines_append h.1, ← joinLines, ih h.2]
    rfl

/-- The beginning of whole lines consists of the first of them and of the beginning of the
next one. -/
theorem exists_cut {d : UInt8} {lines : List Bytes} {received : Bytes}
    (h : received <+: joinLines d lines) :
    ∃ k tail, received = joinLines d (lines.take k) ++ tail ∧
      (tail = [] ∨ ∃ line, lines[k]? = some line ∧ tail <+: line) := by
  induction lines generalizing received with
  | nil =>
    obtain rfl := List.prefix_nil.mp h
    exact ⟨0, [], rfl, .inl rfl⟩
  | cons line lines ih =>
    rw [joinLines, List.flatMap_cons, ← joinLines] at h
    obtain ⟨missing, hmissing⟩ := h
    rcases List.append_eq_append_iff.mp hmissing with ⟨more, hline, -⟩ | ⟨more, rfl, hmore⟩
    · rcases List.prefix_concat_iff.mp ⟨more, hline.symm⟩ with rfl | hcut
      · exact ⟨1, [], by simp [joinLines], .inl rfl⟩
      · exact ⟨0, received, rfl, .inr ⟨line, rfl, hcut⟩⟩
    · obtain ⟨k, tail, rfl, htail⟩ := ih ⟨missing, hmore.symm⟩
      exact ⟨k + 1, tail, by simp [joinLines], by simpa using htail⟩

end Bqti.Core
