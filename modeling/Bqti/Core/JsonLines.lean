import Mathlib.Tactic.Common
import Bqti.Core.Json
import Bqti.Core.Lines

/-!
# JSON values, one on a line

A writer puts every value on a line of its own. Wherever the stream is cut off and in whatever
pieces it arrives, a reader gets the first of the values as they were written, then at most one
failure, and never a value that was not written.
-/

namespace Bqti.Core.Json

/-- The line break. -/
def newline : UInt8 := 10

/-- The bytes of a value. -/
def bytes (v : Value) : Bytes := encodeText (print v)

/-- Values with a line break behind each. -/
def stream (values : List Value) : Bytes := joinLines newline (values.map bytes)

/-- The value of a line. -/
def ofLine (line : Bytes) : Option Value := (decodeText line).bind parse

/-- The values that a reader gets up to the end of the stream, with the failures between them. -/
def decodeLines (reader : BufReader) : List (Option Value) :=
  (reader.readLines newline (reader.rest.length + 1)).map ofLine

/-- A value that is written on a line. -/
def IsRecord (v : Value) : Prop := v.WellFormed ∧ ∃ entries, v = .object entries

/-- A value is written on one line. -/
theorem newline_notMem_bytes {v : Value} (hv : v.WellFormed) : newline ∉ bytes v := by
  rw [newline, bytes, mem_encodeText_newline]
  exact newline_notMem_print v hv

/-- No value is written as nothing. -/
theorem bytes_ne_nil {v : Value} (hv : v.WellFormed) : bytes v ≠ [] := by
  obtain ⟨c, rest, heq, -⟩ := print_eq_cons hv
  rw [bytes, heq, encodeText, List.flatMap_cons]
  exact List.append_ne_nil_of_left_ne_nil String.utf8EncodeChar_ne_nil _

/-- A line gives its value back, with or without the line break. -/
theorem ofLine_bytes {v : Value} (hv : v.WellFormed) : ofLine (bytes v) = some v := by
  rw [ofLine, bytes, decodeText_encodeText, Option.bind_some, parse_print hv]

/-- A line with a value is read back. -/
theorem ofLine_bytes_newline {v : Value} (hv : v.WellFormed) :
    ofLine (bytes v ++ [newline]) = some v := by
  have hbreak : [newline] = encodeText ['\n'] := rfl
  rw [ofLine, bytes, hbreak, ← encodeText_append, decodeText_encodeText, Option.bind_some,
    parse_print_append hv rfl (delimited_cons (by decide) [])]

/-- A line that was cut off gives nothing. -/
theorem ofLine_cut {v : Value} (hv : IsRecord v) {tail : Bytes} (h : tail <+: bytes v)
    (hne : tail ≠ bytes v) : ofLine tail = none := by
  obtain ⟨entries, rfl⟩ := hv.2
  obtain ⟨missing, hmissing⟩ := h
  rw [ofLine]
  cases htext : decodeText tail with
  | none => rfl
  | some text =>
    have htail := encodeText_of_decodeText htext
    obtain ⟨more, hmore, -⟩ := prefix_of_encodeText_append (htail ▸ hmissing)
    refine parse_eq_none_of_cut hv.1 hmore.symm ?_
    rintro rfl
    rw [List.append_nil] at hmore
    exact hne (by rw [← htail, hmore, bytes])

/-- A stream of values is written value by value. -/
theorem stream_append (values others : List Value) :
    stream (values ++ others) = stream values ++ stream others := by
  rw [stream, stream, stream, joinLines, joinLines, joinLines, List.map_append, List.flatMap_append]

/-- A stream starts with the line of its first value. -/
theorem stream_cons (v : Value) (values : List Value) :
    stream (v :: values) = bytes v ++ newline :: stream values := by
  rw [stream, List.map_cons, joinLines, List.flatMap_cons, List.append_assoc,
    List.singleton_append]
  rfl

/-- The values of whole lines, and what a last line without a break gives. -/
theorem decodeLines_of_rest {values : List Value} (h : ∀ v ∈ values, v.WellFormed)
    {reader : BufReader} {tail : Bytes} (htail : newline ∉ tail)
    (hrest : reader.rest = stream values ++ tail) :
    decodeLines reader = values.map some ++ if tail = [] then [] else [ofLine tail] := by
  have hlines : ∀ line ∈ values.map bytes, newline ∉ line := by
    intro line hline
    obtain ⟨v, hv, rfl⟩ := List.mem_map.mp hline
    exact newline_notMem_bytes (h v hv)
  have hsome : (values.map bytes).map (fun line => ofLine (line ++ [newline])) =
      values.map some := by
    rw [List.map_map]
    exact List.map_congr_left fun v hv => ofLine_bytes_newline (h v hv)
  rw [decodeLines, readLines_eq (Nat.lt_succ_self _), hrest, stream,
    splitLines_joinLines hlines htail, List.map_append, List.map_map, ← hsome]
  congr 1
  split <;> rfl

/-- More values take more bytes. -/
theorem length_stream_take_lt {values : List Value} {v : Value} {k j : Nat} (hlt : k < j)
    (hk : values[k]? = some v) :
    (stream (values.take k)).length + (bytes v).length < (stream (values.take j)).length := by
  have hnext : values.take (k + 1) = values.take k ++ [v] := by
    rw [List.take_add_one, hk, Option.toList_some]
  obtain ⟨others, hothers⟩ := List.take_prefix_take_left (l := values) (Nat.succ_le_of_lt hlt)
  have hone : (stream [v]).length = (bytes v).length + 1 := by
    rw [stream_cons, List.length_append, List.length_cons]
    rfl
  rw [← hothers, hnext, stream_append, stream_append, List.length_append, List.length_append, hone]
  omega

/-- Values of a stream that was cut off somewhere: the first of them, among these all whose
lines arrived, and then at most one failure. -/
theorem decodeLines_of_prefix {values : List Value} (h : ∀ v ∈ values, IsRecord v)
    {reader : BufReader} (hreceived : reader.rest <+: stream values) :
    ∃ (k : Nat) (cut : Bool),
      decodeLines reader = (values.take k).map some ++ (if cut then [none] else []) ∧
      (∀ j ≤ values.length, (stream (values.take j)).length ≤ reader.rest.length → j ≤ k) ∧
      (cut = true → k < values.length ∧ reader.rest ≠ stream values) := by
  obtain ⟨k, tail, hrest, htail⟩ := exists_cut hreceived
  rw [← List.map_take, ← stream] at hrest
  have hformed : ∀ v ∈ values.take k, v.WellFormed := fun v hv => (h v (List.mem_of_mem_take hv)).1
  have hlength := congrArg List.length hrest
  rw [List.length_append] at hlength
  by_cases hnil : tail = []
  · subst hnil
    refine ⟨k, false, ?_, ?_, fun hcut => absurd hcut Bool.false_ne_true⟩
    · rw [decodeLines_of_rest hformed List.not_mem_nil hrest]
      rfl
    · intro j hj hle
      by_contra hlt
      have hk : k < values.length := by omega
      have hmore := length_stream_take_lt (Nat.lt_of_not_le hlt) (List.getElem?_eq_getElem hk)
      rw [List.length_nil] at hlength
      omega
  · obtain ⟨line, hline, hpre⟩ := htail.resolve_left hnil
    rw [List.getElem?_map] at hline
    obtain ⟨v, hv, rfl⟩ := Option.map_eq_some_iff.mp hline
    have hrecord : IsRecord v := h v (List.mem_of_getElem? hv)
    have hnewline : newline ∉ tail := fun hmem =>
      newline_notMem_bytes hrecord.1 (hpre.sublist.mem hmem)
    have hread := decodeLines_of_rest hformed hnewline hrest
    have hbound : ∀ j ≤ values.length, (stream (values.take j)).length ≤ reader.rest.length →
        j ≤ k := by
      intro j _ hle
      by_contra hlt
      have hmore := length_stream_take_lt (Nat.lt_of_not_le hlt) hv
      have hshort := hpre.length_le
      omega
    have hk : k < values.length := (List.getElem?_eq_some_iff.mp hv).1
    rw [if_neg hnil] at hread
    by_cases hwhole : tail = bytes v
    · refine ⟨k + 1, false, ?_, fun j hj hle => (hbound j hj hle).trans (Nat.le_succ k),
        fun hcut => absurd hcut Bool.false_ne_true⟩
      rw [hread, hwhole, ofLine_bytes hrecord.1, List.take_add_one, hv, List.map_append]
      simp
    · refine ⟨k, true, ?_, hbound, fun _ => ⟨hk, ?_⟩⟩
      · rw [hread, ofLine_cut hrecord hpre hwhole]
        rfl
      · intro hall
        have hle := hbound values.length le_rfl (by rw [List.take_length, hall])
        omega

end Bqti.Core.Json
