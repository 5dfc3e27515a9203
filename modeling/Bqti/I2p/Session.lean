import Bqti.Core.LineCalls
import Bqti.Core.Query
import Mathlib.Data.List.DropRight
import Mathlib.Data.List.Infix

/-!
# Lookups of names over I2P

A session asks the bridge for the destination of a name over its control connection, one lookup at
a time. A lookup may be dropped before it has read its reply, as those of the other nodes are when
one of them was joined, and then the next one reads a reply that is not its own.
-/

namespace Bqti.I2p.SamSession

open Bqti.Core Bqti.Core.LineCalls

/-- What may go wrong between a client and its bridge. -/
inductive SamError
  | io
  | bridge (message : List Char)
  | missingField (field : List Char)
  deriving DecidableEq

/-- White space. -/
def isWhitespace (c : Char) : Bool :=
  let n := c.toNat
  decide (9 ≤ n ∧ n ≤ 13 ∨ n = 0x20 ∨ n = 0x85 ∨ n = 0xa0 ∨ n = 0x1680 ∨
    0x2000 ≤ n ∧ n ≤ 0x200a ∨ n = 0x2028 ∨ n = 0x2029 ∨ n = 0x202f ∨ n = 0x205f ∨ n = 0x3000)

/-- The words between white space. -/
def splitWhitespace (text : List Char) : List (List Char) :=
  (text.splitOnP isWhitespace).filter fun word => !word.isEmpty

/-- A text without the white space around it. -/
def trim (text : List Char) : List Char := (text.dropWhile isWhitespace).rdropWhile isWhitespace

/-- The value of the first word that begins with the field. -/
def parseField (reply field : List Char) : Option (List Char) :=
  ((splitWhitespace reply).find? fun word => (field ++ ['=']).isPrefixOf word).bind fun word =>
    (splitOnce '=' word).map Prod.snd

/-- What a good reply holds. -/
def resultOk : List Char := "RESULT=OK".toList

/-- A reply without the good result is an error, with the message of the reply if it has one. -/
def ensureOk (reply : List Char) : Except SamError Unit :=
  if resultOk <:+: reply then .ok ()
  else .error (.bridge ((parseField reply "MESSAGE".toList).getD reply))

/-- The reply in a line that was read. -/
def readLine (line : Bytes) : Except SamError (List Char) :=
  match decodeText line with
  | none => .error .io
  | some text =>
      if line = [] then .error (.bridge "SAM bridge closed connection".toList)
      else .ok (trim text)

/-- What a lookup makes of the line that it has read. -/
def lookupReply (line : Bytes) : Except SamError (List Char) :=
  match readLine line with
  | .error e => .error e
  | .ok reply =>
      match ensureOk reply with
      | .error e => .error e
      | .ok () =>
          match parseField reply "VALUE".toList with
          | some value => .ok value
          | none => .error (.missingField "VALUE".toList)

/-- The request of a lookup, without its line break. -/
def lookupRequest (name : List Char) : Bytes :=
  encodeText ("NAMING LOOKUP NAME=".toList ++ name)

/-! ## The bridge -/

/-- No white space. -/
def Solid (text : List Char) : Prop := ∀ c ∈ text, isWhitespace c = false

instance (text : List Char) : Decidable (Solid text) := List.decidableBAll _ text

/-- The fields of a reply behind its result. -/
def fields (name : List Char) (dest : Option (List Char)) : List Char :=
  "NAME=".toList ++ name ++
    match dest with
    | some dest => ' ' :: ("VALUE=".toList ++ dest)
    | none => []

/-- The result of a lookup as the bridge writes it. -/
def resultField : Option (List Char) → List Char
  | some _ => "NAMING REPLY RESULT=OK".toList
  | none => "NAMING REPLY RESULT=KEY_NOT_FOUND".toList

/-- The reply of the bridge. -/
def namingReply (name : List Char) (dest : Option (List Char)) : List Char :=
  resultField dest ++ ' ' :: fields name dest

/-- A bridge, with the names that it knows. -/
structure Bridge where
  naming : List Char → Option (List Char)
  answer : Bytes → Bytes

/-- A bridge answers with lines, and lookups with what it knows. -/
structure Bridge.Lawful (bridge : Bridge) : Prop where
  line : ∀ request, 10 ∉ bridge.answer request
  solid : ∀ name, ∀ dest ∈ bridge.naming name, Solid dest
  naming : ∀ name, Solid name → bridge.answer (lookupRequest name ++ [10]) =
    encodeText (namingReply name (bridge.naming name))

/-- What a lookup is right to return for a name with this destination, or without one. -/
def Right : Option (List Char) → Except SamError (List Char) → Prop
  | some dest, .ok value => value = dest
  | none, .error _ => True
  | some _, .error _ | none, .ok _ => False

/-! ## Words -/

/-- A part of a list that is split has members of the list. -/
theorem mem_of_mem_splitOnP {α : Type*} {p : α → Bool} {l : List α} :
    ∀ word ∈ l.splitOnP p, ∀ c ∈ word, c ∈ l := by
  induction l with
  | nil => simp
  | cons x l ih =>
    rw [List.splitOnP_cons_eq_if_modifyHead]
    split
    · rw [List.forall_mem_cons]
      exact ⟨fun c hc => absurd hc List.not_mem_nil, fun word hword c hc =>
        List.mem_cons_of_mem _ (ih word hword c hc)⟩
    · cases hsplit : l.splitOnP p with
      | nil => exact absurd hsplit (List.splitOnP_ne_nil p l)
      | cons first words =>
        rw [hsplit, List.forall_mem_cons] at ih
        rw [List.modifyHead_cons, List.forall_mem_cons, List.forall_mem_cons]
        exact ⟨⟨List.mem_cons_self, fun c hc => List.mem_cons_of_mem _ (ih.1 c hc)⟩,
          fun word hword c hc => List.mem_cons_of_mem _ (ih.2 word hword c hc)⟩

/-- A text is split at a blank. -/
theorem splitWhitespace_append (text rest : List Char) :
    splitWhitespace (text ++ ' ' :: rest) = splitWhitespace text ++ splitWhitespace rest := by
  rw [splitWhitespace, List.splitOnP_append_cons _ _ (by decide), List.filter_append]
  rfl

/-- A word without white space is not split. -/
theorem splitWhitespace_of_solid {word : List Char} (h : Solid word) (hne : word ≠ []) :
    splitWhitespace word = [word] := by
  rw [splitWhitespace, List.splitOnP_eq_singleton h]
  simp [hne]

/-- A word of a text has characters of the text. -/
theorem mem_of_mem_splitWhitespace {text word : List Char} (h : word ∈ splitWhitespace text) :
    ∀ c ∈ word, c ∈ text := mem_of_mem_splitOnP word (List.mem_of_mem_filter h)

/-- A word with a value starts with the name of the value. -/
theorem isPrefixOf_value (word : List Char) :
    ("VALUE".toList ++ ['=']).isPrefixOf word = true ↔
      ∃ value, word = "VALUE=".toList ++ value := by
  rw [List.isPrefixOf_iff_prefix]
  exact ⟨fun ⟨value, h⟩ => ⟨value, h.symm⟩, fun ⟨value, h⟩ => ⟨value, h.symm⟩⟩

/-- Behind words without its first letter, the value of a reply is the one among its fields. -/
theorem parseField_fields {text name : List Char} (htext : 'V' ∉ text) (hname : Solid name)
    {dest : Option (List Char)} (hdest : ∀ d ∈ dest, Solid d) :
    parseField (text ++ ' ' :: fields name dest) "VALUE".toList = dest := by
  have hbefore : ∀ word ∈ splitWhitespace text,
      ¬ ("VALUE".toList ++ ['=']).isPrefixOf word = true := by
    intro word hword hvalue
    obtain ⟨value, rfl⟩ := (isPrefixOf_value word).mp hvalue
    exact htext (mem_of_mem_splitWhitespace hword 'V' (by simp))
  have hfirst : splitWhitespace ("NAME=".toList ++ name) = ["NAME=".toList ++ name] := by
    refine splitWhitespace_of_solid (fun c hc => ?_) (by simp)
    rcases List.mem_append.mp hc with hc | hc
    · exact (by decide : Solid "NAME=".toList) c hc
    · exact hname c hc
  have hname' : ¬ ("VALUE".toList ++ ['=']).isPrefixOf ("NAME=".toList ++ name) = true := by
    intro hvalue
    obtain ⟨value, heq⟩ := (isPrefixOf_value _).mp hvalue
    exact absurd (List.cons.inj heq).1 (by decide)
  rw [parseField, splitWhitespace_append, List.find?_append,
    List.find?_eq_none.mpr hbefore, Option.none_or]
  cases dest with
  | none =>
    rw [fields, List.append_nil, hfirst, List.find?_cons_of_neg hname']
    rfl
  | some dest =>
    have hsecond : splitWhitespace ("VALUE=".toList ++ dest) = ["VALUE=".toList ++ dest] := by
      refine splitWhitespace_of_solid (fun c hc => ?_) (by simp)
      rcases List.mem_append.mp hc with hc | hc
      · exact (by decide : Solid "VALUE=".toList) c hc
      · exact hdest dest rfl c hc
    have hvalue : ("VALUE".toList ++ ['=']).isPrefixOf ("VALUE=".toList ++ dest) = true :=
      (isPrefixOf_value _).mpr ⟨dest, rfl⟩
    have hfield : '=' ∉ "VALUE".toList := by decide
    have hsplit : splitOnce '=' ("VALUE=".toList ++ dest) = some ("VALUE".toList, dest) :=
      splitOnce_append hfield dest
    rw [fields, splitWhitespace_append, hfirst, hsecond, List.singleton_append,
      List.find?_cons_of_neg hname', List.find?_cons_of_pos hvalue, Option.bind_some, hsplit]
    rfl

/-! ## Replies that are read from some byte on -/

/-- The end of a text that ends with a letter, read with its line break, is an end of the text. -/
theorem trim_concat_suffix {text part : List Char}
    (hlast : ∀ h : text ≠ [], isWhitespace (text.getLast h) = false) (h : part <:+ text) :
    trim (part ++ ['\n']) <:+ text := by
  rcases List.suffix_concat_iff.mp (List.dropWhile_suffix (l := part ++ ['\n']) isWhitespace) with
    hnil | ⟨rest, hrest, hsuffix⟩
  · rw [trim, hnil]
    exact List.nil_suffix
  · rw [trim, hrest, List.rdropWhile_concat_pos _ _ _ (by decide),
      List.rdropWhile_eq_self_iff.mpr]
    · exact hsuffix.trans h
    · intro hne
      obtain ⟨lost, rfl⟩ := hsuffix.trans h
      have hend := hlast (List.append_ne_nil_of_right_ne_nil lost hne)
      rw [List.getLast_append_of_right_ne_nil _ _ hne] at hend
      simp [hend]

/-- A word that stands in a text stands before or behind a blank. -/
theorem before_or_after {α : Type*} {sep : α} {word before after : List α} (h : sep ∉ word)
    (hmem : word <:+: before ++ sep :: after) : word <:+: before ∨ word <:+: after := by
  obtain ⟨s, t, heq⟩ := hmem
  rcases List.append_eq_append_iff.mp heq with ⟨more, hbefore, -⟩ | ⟨more, hleft, hright⟩
  · exact .inl ⟨s, more, hbefore.symm⟩
  · cases more with
    | nil => exact .inl ⟨s, [], by simpa using hleft⟩
    | cons c more =>
      rw [List.cons_append, List.cons.injEq] at hright
      obtain ⟨rfl, rfl⟩ := hright
      rcases List.append_eq_append_iff.mp hleft with ⟨k, -, hword⟩ | ⟨k, -, hword⟩
      · exact absurd (by rw [hword]; simp) h
      · cases k with
        | nil =>
          rw [List.nil_append] at hword
          exact absurd (by rw [← hword]; simp) h
        | cons c' k =>
          rw [List.cons_append, List.cons.injEq] at hword
          exact .inr ⟨k, t, by rw [← hword.2]⟩

/-- A text that ends with a solid word does not end with white space. -/
theorem getLast_append_solid {text word : List Char} (h : Solid word) (hne : word ≠ []) :
    ∀ hall : text ++ word ≠ [], isWhitespace ((text ++ word).getLast hall) = false := by
  intro hall
  rw [List.getLast_append_of_right_ne_nil _ _ hne]
  exact h _ (List.getLast_mem hne)

/-- Two solid texts make a solid one. -/
theorem solid_append {text more : List Char} (h : Solid text) (hmore : Solid more) :
    Solid (text ++ more) := by
  intro c hc
  exact (List.mem_append.mp hc).elim (h c) (hmore c)

/-- The fields end with a word. -/
theorem exists_last_word {name : List Char} (hname : Solid name) {dest : Option (List Char)}
    (hdest : ∀ d ∈ dest, Solid d) :
    ∃ before word, fields name dest = before ++ word ∧ Solid word ∧ word ≠ [] := by
  cases dest with
  | none =>
    exact ⟨[], "NAME=".toList ++ name, by rw [fields, List.append_nil, List.nil_append],
      solid_append (by decide) hname, by simp⟩
  | some dest =>
    exact ⟨"NAME=".toList ++ name ++ [' '], "VALUE=".toList ++ dest,
      by rw [fields, List.append_assoc _ [' '], List.singleton_append],
      solid_append (by decide) (hdest dest rfl), by simp⟩

/-- A reply to a lookup does not end with white space. -/
theorem getLast_namingReply {name : List Char} (hname : Solid name) {dest : Option (List Char)}
    (hdest : ∀ d ∈ dest, Solid d) :
    ∀ h : namingReply name dest ≠ [],
      isWhitespace ((namingReply name dest).getLast h) = false := by
  obtain ⟨before, word, hfields, hword, hne⟩ := exists_last_word hname hdest
  have heq : namingReply name dest = (resultField dest ++ ' ' :: before) ++ word := by
    rw [namingReply, hfields, List.append_assoc, List.cons_append]
  rw [heq]
  exact getLast_append_solid hword hne

/-- A reply is good if it can be read, has the good result and a value. -/
theorem lookupReply_eq_ok {line : Bytes} {value : List Char} (h : lookupReply line = .ok value) :
    ∃ text, decodeText line = some text ∧ resultOk <:+: trim text ∧
      parseField (trim text) "VALUE".toList = some value := by
  rw [lookupReply] at h
  split at h
  · contradiction
  · rename_i reply hreply
    split at h
    · contradiction
    · rename_i hok
      split at h
      · rename_i value' hvalue
        obtain rfl := Except.ok.inj h
        rw [readLine] at hreply
        split at hreply
        · contradiction
        · rename_i text htext
          split at hreply
          · contradiction
          · obtain rfl := Except.ok.inj hreply
            rw [ensureOk] at hok
            split at hok
            · rename_i hmem
              exact ⟨text, htext, hmem, hvalue⟩
            · contradiction
      · contradiction

/-- The result of a reply has no `V`, so that no value starts there. -/
theorem notMem_resultField (dest : Option (List Char)) : 'V' ∉ resultField dest := by
  cases dest with
  | none =>
    have hnone : 'V' ∉ "NAMING REPLY RESULT=KEY_NOT_FOUND".toList := by decide
    exact hnone
  | some dest =>
    have hsome : 'V' ∉ "NAMING REPLY RESULT=OK".toList := by decide
    exact hsome

/-- A lookup that reads the end of a reply up to its line break, and gets a destination out of it,
gets the one in the reply, unless its fields look like a result. -/
theorem dest_of_lookupReply {name : List Char} (hname : Solid name) {dest : Option (List Char)}
    (hdest : ∀ d ∈ dest, Solid d) (hclear : ¬ resultOk <:+: fields name dest) {line : Bytes}
    (hline : 10 ∈ line) (hsuffix : line <:+ encodeText (namingReply name dest) ++ [10])
    {value : List Char} (hvalue : lookupReply line = .ok value) : dest = some value := by
  obtain ⟨text, htext, hresult, hparse⟩ := lookupReply_eq_ok hvalue
  obtain rfl := encodeText_of_decodeText htext
  have hbreak : encodeText ['\n'] = [10] := by decide
  obtain ⟨lost, hlost⟩ := hsuffix
  rw [← hbreak, ← encodeText_append] at hlost
  have htail := suffix_of_append_encodeText hlost
  rcases List.suffix_concat_iff.mp htail with rfl | ⟨part, rfl, hpart⟩
  · exact absurd hline List.not_mem_nil
  have hreply := trim_concat_suffix (getLast_namingReply hname hdest) hpart
  obtain ⟨before, hbefore⟩ := hreply
  rw [namingReply] at hbefore
  rcases List.append_eq_append_iff.mp hbefore with ⟨more, hhead, hrest⟩ | ⟨more, -, hrest⟩
  · -- The result and all fields were read.
    rw [hrest, parseField_fields ?_ hname hdest] at hparse
    · exact hparse
    · intro hmem
      have hv : 'V' ∈ before ++ more := List.mem_append_right _ hmem
      rw [← hhead] at hv
      exact notMem_resultField dest hv
  · -- Only fields were read.
    have hall : resultOk <:+: [] ++ ' ' :: fields name dest := by
      rw [List.nil_append, hrest]
      exact hresult.trans (List.suffix_append more _).isInfix
    rcases before_or_after (by decide) hall with hnil | hfields
    · exact absurd (List.infix_nil.mp hnil) (by decide)
    · exact absurd hfields hclear

/-- A line without its line break is the reply. -/
theorem trim_namingReply {name : List Char} (hname : Solid name) {dest : Option (List Char)}
    (hdest : ∀ d ∈ dest, Solid d) :
    trim (namingReply name dest ++ ['\n']) = namingReply name dest := by
  have hhead : ∃ rest, namingReply name dest = 'N' :: rest := by
    cases dest <;> exact ⟨_, rfl⟩
  have hdrop : (namingReply name dest ++ ['\n']).dropWhile isWhitespace =
      namingReply name dest ++ ['\n'] := by
    obtain ⟨rest, heq⟩ := hhead
    rw [heq, List.cons_append, List.dropWhile_cons_of_neg (by decide)]
  rw [trim, hdrop, List.rdropWhile_concat_pos _ _ _ (by decide), List.rdropWhile_eq_self_iff]
  intro h
  simp [getLast_namingReply hname hdest h]

/-- A lookup that reads a whole reply gets the destination in it, and an error if there is none. -/
theorem lookupReply_namingReply {name : List Char} (hname : Solid name)
    {dest : Option (List Char)} (hdest : ∀ d ∈ dest, Solid d) :
    Right dest (lookupReply (encodeText (namingReply name dest) ++ [10])) := by
  have hbreak : encodeText ['\n'] = [10] := by decide
  have hread : readLine (encodeText (namingReply name dest) ++ [10]) =
      .ok (namingReply name dest) := by
    rw [← hbreak, ← encodeText_append, readLine, decodeText_encodeText]
    dsimp only
    rw [trim_namingReply hname hdest, encodeText_append, hbreak, if_neg (by simp)]
  have hparse : parseField (namingReply name dest) "VALUE".toList = dest :=
    parseField_fields (notMem_resultField dest) hname hdest
  cases dest with
  | none =>
    rw [lookupReply, hread]
    dsimp only
    cases ensureOk (namingReply name none) with
    | error e => trivial
    | ok u =>
      rw [hparse]
      trivial
  | some dest =>
    have hok : resultOk <:+: namingReply name (some dest) :=
      ⟨"NAMING REPLY ".toList, ' ' :: fields name (some dest), rfl⟩
    rw [lookupReply, hread]
    dsimp only
    rw [ensureOk, if_pos hok]
    dsimp only
    rw [hparse]
    rfl

/-! ## Runs -/

/-- A solid text has no line break. -/
theorem newline_notMem_of_solid {text : List Char} (h : Solid text) : '\n' ∉ text :=
  fun hmem => absurd (h _ hmem) (by decide)

/-- Whatever lookups are dropped, and wherever in their requests and replies, a lookup that returns
a destination before the end of the stream returns the one of the name in the request with its
number, unless the fields of the reply look like a result. -/
theorem naming_of_lookup {bridge : Bridge} (hbridge : bridge.Lawful)
    {labels : List (Label (List Char))} {last : Client (List Char)}
    (hrun : run (Client.step 10 (fun name => lookupRequest name ++ [10]) bridge.answer)
      Client.start labels = some last)
    {i : ℕ} {r : List Char × Bytes} (hr : last.results[i]? = some r) (hline : 10 ∈ r.2)
    {value : List Char} (hvalue : lookupReply r.2 = .ok value) {name : List Char}
    (hasked : (wholeLines 10 last.written)[i]? = some (lookupRequest name ++ [10]))
    (hname : Solid name) (hclear : ¬ resultOk <:+: fields name (bridge.naming name)) :
    bridge.naming name = some value := by
  obtain ⟨reply, hreply, hsuffix⟩ := (Client.suffix_of_results hbridge.line hrun hr).1 hline
  rw [Client.replies, List.getElem?_map, hasked, Option.map_some,
    hbridge.naming name hname] at hreply
  obtain rfl := Option.some.inj hreply
  exact dest_of_lookupReply hname (hbridge.solid name) hclear hline hsuffix hvalue

/-- A name without white space. -/
structure Name where
  text : List Char
  solid : Solid text

/-- If no lookup is dropped while it writes or reads a line, one that returns before the end of the
stream has the answer for the name that was asked for with its number; it is its own as long as no
lookup was dropped behind its request. -/
theorem lookups_of_whole {bridge : Bridge} (hbridge : bridge.Lawful) {labels : List (Label Name)}
    {last : Client Name}
    (hwhole : Along (Client.step 10 (fun name => lookupRequest name.text ++ [10]) bridge.answer)
      (Client.Whole fun name => lookupRequest name.text ++ [10]) Client.start labels)
    (hrun : run (Client.step 10 (fun name => lookupRequest name.text ++ [10]) bridge.answer)
      Client.start labels = some last) :
    (∀ (i : ℕ) (r : Name × Bytes), last.results[i]? = some r → 10 ∈ r.2 →
        ∃ name, last.asked[i]? = some name ∧
          Right (bridge.naming name.text) (lookupReply r.2)) ∧
      (last.results.map Prod.fst).Sublist last.asked ∧
      (last.dropped = 0 → last.results.map Prod.fst <+: last.asked) := by
  have hbody : ∀ name : Name, 10 ∉ lookupRequest name.text := by
    intro name hmem
    rw [lookupRequest, mem_encodeText_newline, List.mem_append] at hmem
    rcases hmem with hmem | hmem
    · exact absurd hmem (by decide)
    · exact newline_notMem_of_solid name.solid hmem
  obtain ⟨hreplies, hnames⟩ := Client.results_of_whole hbody hbridge.line hwhole hrun
  refine ⟨fun i r hr hline => ?_, hnames⟩
  obtain ⟨name, hname, heq⟩ := hreplies i r hr hline
  refine ⟨name, hname, ?_⟩
  rw [heq, hbridge.naming name.text name.solid]
  exact lookupReply_namingReply name.solid (hbridge.solid name.text)

/-! ## A bridge with two names -/

/-- A bridge that knows two names. -/
def sampleNaming (name : List Char) : Option (List Char) :=
  if name = ['a'] then some ['A'] else if name = ['b'] then some ['B'] else none

/-- The answer to a lookup of the name behind the command. -/
def sampleAnswer (request : Bytes) : Bytes :=
  let name := (((decodeText request).getD []).drop 19).takeWhile (· != '\n')
  encodeText (namingReply name (sampleNaming name))

/-- The bridge of the sample names. -/
def sampleBridge : Bridge := ⟨sampleNaming, sampleAnswer⟩

/-- The sample names stand for solid destinations. -/
theorem solid_of_sampleNaming {name dest : List Char} (h : sampleNaming name = some dest) :
    Solid dest := by
  rw [sampleNaming] at h
  split at h
  · obtain rfl := Option.some.inj h
    decide
  · split at h
    · obtain rfl := Option.some.inj h
      decide
    · contradiction

/-- A reply to a lookup is one line. -/
theorem newline_notMem_namingReply {name : List Char} (hname : '\n' ∉ name)
    {dest : Option (List Char)} (hdest : ∀ d ∈ dest, Solid d) : '\n' ∉ namingReply name dest := by
  have hresult : '\n' ∉ resultField dest := by
    cases dest with
    | none =>
      have hnone : '\n' ∉ "NAMING REPLY RESULT=KEY_NOT_FOUND".toList := by decide
      exact hnone
    | some dest =>
      have hsome : '\n' ∉ "NAMING REPLY RESULT=OK".toList := by decide
      exact hsome
  have hfield : '\n' ∉ "NAME=".toList ++ name := fun hmem =>
    (List.mem_append.mp hmem).elim (fun h => absurd h (by decide)) hname
  have hvalue : '\n' ∉ "VALUE=".toList := by decide
  have hfields : '\n' ∉ fields name dest := by
    cases dest with
    | none =>
      rw [fields, List.append_nil]
      exact hfield
    | some dest =>
      rw [fields, List.mem_append, List.mem_cons]
      rintro (h | h | h)
      · exact hfield h
      · exact absurd h (by decide)
      · exact (List.mem_append.mp h).elim hvalue (newline_notMem_of_solid (hdest dest rfl))
  rw [namingReply, List.mem_append, List.mem_cons]
  rintro (h | h | h)
  · exact hresult h
  · exact absurd h (by decide)
  · exact hfields h

/-- The sample bridge answers as a bridge should. -/
theorem lawful_sampleBridge : sampleBridge.Lawful where
  line request := by
    change 10 ∉ sampleAnswer request
    rw [sampleAnswer, mem_encodeText_newline]
    refine newline_notMem_namingReply (fun hmem => ?_) fun d hd => solid_of_sampleNaming hd
    simpa using List.mem_takeWhile_imp hmem
  solid name dest hdest := solid_of_sampleNaming hdest
  naming name hname := by
    have hbreak : encodeText ['\n'] = [10] := by decide
    have htext : (("NAMING LOOKUP NAME=".toList ++ name ++ ['\n']).drop 19).takeWhile
        (· != '\n') = name := by
      have hcommand : "NAMING LOOKUP NAME=".toList.length = 19 := by decide
      rw [List.append_assoc, ← hcommand, List.drop_left, List.takeWhile_append_of_pos]
      · simp
      · intro c hc
        have hne : c ≠ '\n' := fun heq => absurd (hname c hc) (by rw [heq]; decide)
        simpa using hne
    change sampleAnswer _ = _
    rw [lookupRequest, ← hbreak, ← encodeText_append, sampleAnswer, decodeText_encodeText]
    simp only [Option.getD_some, htext]
    rfl

/-- The lookup of `a` is dropped when it has read five bytes, and that of `b` reads the rest. -/
def cutLabels : List (Label (List Char)) :=
  [.call ['a'], .write 100, .reply (sampleAnswer (lookupRequest ['a'] ++ [10]) ++ [10]), .read 5,
    .drop, .call ['b'], .write 100, .read 100]

/-- After a call that was cut off, the lookup of `b` returns the destination of `a`. -/
theorem naming_of_lookup_cut :
    ∃ last r value, run (Client.step 10 (fun name => lookupRequest name ++ [10])
        sampleBridge.answer) Client.start cutLabels = some last ∧
      last.results = [r] ∧ r.1 = ['b'] ∧ lookupReply r.2 = .ok value ∧
      sampleBridge.naming ['a'] = some value := by
  have hlast : (run (Client.step 10 (fun name => lookupRequest name ++ [10]) sampleBridge.answer)
      Client.start cutLabels).any fun last => decide
        (last.results.map Prod.fst = [['b']] ∧ (∀ r ∈ last.results, 10 ∈ r.2) ∧
          last.results.map (fun r => lookupReply r.2) = [.ok ['A']] ∧
          (wholeLines 10 last.written)[0]? = some (lookupRequest ['a'] ++ [10])) := by
    decide +kernel
  obtain ⟨last, hrun, hnames, hlines, hvalues, hasked⟩ := exists_of_any hlast
  obtain ⟨r, hone⟩ := List.length_eq_one_iff.mp
    ((List.length_map Prod.fst).symm.trans (congrArg List.length hnames))
  rw [hone] at hnames hlines hvalues
  have hvalue : lookupReply r.2 = .ok ['A'] := (List.cons.inj hvalues).1
  have hr : last.results[0]? = some r := by rw [hone]; rfl
  have hsolid : Solid ['a'] := by decide
  have hclear : ¬ resultOk <:+: fields ['a'] (sampleBridge.naming ['a']) := by decide +kernel
  exact ⟨last, r, ['A'], hrun, hone, (List.cons.inj hnames).1, hvalue,
    naming_of_lookup lawful_sampleBridge hrun hr (hlines r List.mem_cons_self) hvalue hasked hsolid
      hclear⟩

/-- The first sample name. -/
def nameA : Name := ⟨['a'], by decide⟩

/-- The second sample name. -/
def nameB : Name := ⟨['b'], by decide⟩

/-- The lookup of `a` is dropped behind its request, and that of `b` reads its reply. -/
def droppedLabels : List (Label Name) :=
  [.call nameA, .write 100, .drop, .call nameB, .write 100,
    .reply (sampleAnswer (lookupRequest ['a'] ++ [10]) ++ [10]), .read 100]

/-- A call that is dropped between its parts leaves the later ones right. -/
theorem lookups_of_whole_dropped :
    ∃ last r, run (Client.step 10 (fun name => lookupRequest name.text ++ [10])
        sampleBridge.answer) Client.start droppedLabels = some last ∧
      last.results = [r] ∧ r.1.text = ['b'] ∧ Right (sampleBridge.naming ['a']) (lookupReply r.2) ∧
      ¬ Right (sampleBridge.naming ['b']) (lookupReply r.2) := by
  have hwhole : Along (Client.step 10 (fun name => lookupRequest name.text ++ [10])
      sampleBridge.answer) (Client.Whole fun name => lookupRequest name.text ++ [10]) Client.start
        droppedLabels := by
    decide +kernel
  have hlast : (run (Client.step 10 (fun name : Name => lookupRequest name.text ++ [10])
      sampleBridge.answer) Client.start droppedLabels).any fun last => decide
        (last.results.map (fun r => r.1.text) = [['b']] ∧ (∀ r ∈ last.results, 10 ∈ r.2) ∧
          last.asked.map Name.text = [['a'], ['b']]) := by
    decide +kernel
  obtain ⟨last, hrun, hnames, hlines, hasked⟩ := exists_of_any hlast
  obtain ⟨r, hone⟩ := List.length_eq_one_iff.mp
    ((List.length_map fun r : Name × Bytes => r.1.text).symm.trans (congrArg List.length hnames))
  rw [hone] at hnames hlines
  have hr : last.results[0]? = some r := by rw [hone]; rfl
  obtain ⟨name, hname, hright⟩ := (lookups_of_whole lawful_sampleBridge hwhole hrun).1 0 r hr
    (hlines r List.mem_cons_self)
  have htext : name.text = ['a'] := by
    have hfirst : (last.asked.map Name.text)[0]? = some name.text := by
      rw [List.getElem?_map, hname]
      rfl
    rw [hasked] at hfirst
    exact (Option.some.inj hfirst).symm
  rw [htext] at hright
  refine ⟨last, r, hrun, hone, (List.cons.inj hnames).1, hright, fun hown => ?_⟩
  have ha : sampleBridge.naming ['a'] = some ['A'] := rfl
  have hb : sampleBridge.naming ['b'] = some ['B'] := rfl
  rw [ha] at hright
  rw [hb] at hown
  cases hreply : lookupReply r.2 with
  | error e =>
    rw [hreply] at hright
    exact hright
  | ok value =>
    rw [hreply] at hright hown
    exact absurd (hright.symm.trans hown) (by decide)

end Bqti.I2p.SamSession
