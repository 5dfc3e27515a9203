import Bqti.Core.Lines
import Bqti.Core.Run
import Mathlib.Data.List.Forall2

/-!
# Calls over one connection, a line at a time

Under a lock a caller writes a request that is a line and reads a line, and the server answers each
whole line that it gets with a line, in order. Bytes go and come in any pieces, and a caller may be
dropped at any time, which frees the lock and leaves what it has written and not read.

The line that a call returns belongs to the request with the same number among all that were
written, whoever has written it.
-/

namespace Bqti.Core

/-! ## Whole lines -/

/-- The lines that are there with their delimiter, the first of which begins with `acc`. -/
def wholeFrom (d : UInt8) (acc : Bytes) : Bytes → List Bytes
  | [] => []
  | b :: rest =>
      if b = d then (acc ++ [b]) :: wholeFrom d [] rest else wholeFrom d (acc ++ [b]) rest

/-- The whole lines of a stream, each with its delimiter. -/
def wholeLines (d : UInt8) (s : Bytes) : List Bytes := wholeFrom d [] s

/-- More input keeps the whole lines that there are. -/
theorem wholeFrom_mono (d : UInt8) (acc s t : Bytes) :
    wholeFrom d acc s <+: wholeFrom d acc (s ++ t) := by
  induction s generalizing acc with
  | nil => exact List.nil_prefix
  | cons b s ih =>
    rw [List.cons_append, wholeFrom, wholeFrom]
    split
    · exact List.prefix_cons_inj _ |>.mpr (ih [])
    · exact ih _

/-- A part without the delimiter goes on with the line. -/
theorem wholeFrom_append {d : UInt8} {line : Bytes} (h : d ∉ line) (acc rest : Bytes) :
    wholeFrom d acc (line ++ rest) = wholeFrom d (acc ++ line) rest := by
  induction line generalizing acc with
  | nil => rw [List.nil_append, List.append_nil]
  | cons b line ih =>
    rw [List.mem_cons, not_or] at h
    rw [List.cons_append, wholeFrom, if_neg (Ne.symm h.1), ih h.2, List.append_assoc,
      List.singleton_append]

/-- Lines that are written one after the other are the whole lines, and a part of one adds none. -/
theorem wholeLines_flatMap {Q : Type*} {d : UInt8} {body : Q → Bytes} (h : ∀ q, d ∉ body q)
    (qs : List Q) {part : Bytes} (hpart : d ∉ part) :
    wholeLines d (qs.flatMap (fun q => body q ++ [d]) ++ part) =
      qs.map fun q => body q ++ [d] := by
  induction qs with
  | nil =>
    rw [List.flatMap_nil, List.nil_append, wholeLines, ← List.append_nil part,
      wholeFrom_append hpart]
    rfl
  | cons q qs ih =>
    rw [List.flatMap_cons, List.append_assoc, List.append_assoc, wholeLines,
      wholeFrom_append (h q), List.singleton_append, wholeFrom, if_pos rfl, List.map_cons,
      List.nil_append, ← wholeLines, ih]

namespace LineCalls

variable {Q : Type*}

/-- How far a call is. -/
inductive Stage (Q : Type*)
  | sending (call : Q) (unsent : Bytes)
  | reading (call : Q) (line : Bytes)

/-- The connection, the call that holds the lock, the calls whose requests were written, those that
have returned with the lines that they have read, and the number of those that were dropped after
their requests were written. -/
structure Client (Q : Type*) where
  written : Bytes
  sent : Bytes
  unread : Bytes
  ended : Bool
  stage : Option (Stage Q)
  asked : List Q
  results : List (Q × Bytes)
  dropped : ℕ

/-- A call that takes the lock, a part of its request that is written, bytes that the server sends,
the end of its stream, some of the bytes that are there being read, and a call that is dropped. -/
inductive Label (Q : Type*)
  | call (q : Q)
  | write (n : ℕ)
  | reply (bytes : Bytes)
  | eof
  | read (n : ℕ)
  | drop

namespace Client

/-- A client before its first call. -/
def start : Client Q := ⟨[], [], [], false, none, [], [], 0⟩

/-- The replies to what was written. -/
def replies (d : UInt8) (answer : Bytes → Bytes) (client : Client Q) : List Bytes :=
  (wholeLines d client.written).map answer

/-- A call returns. -/
def finish (client : Client Q) (q : Q) (line unread : Bytes) : Client Q :=
  { client with stage := none, unread, results := client.results ++ [(q, line)] }

/-- A call reads from the bytes that are there up to the delimiter; at the end of the stream it
returns what it has. -/
def read (d : UInt8) (client : Client Q) (q : Q) (line : Bytes) (n : ℕ) : Option (Client Q) :=
  match splitAfter d (client.unread.take n) with
  | some (more, _) => some (client.finish q (line ++ more) (client.unread.drop more.length))
  | none =>
      if client.unread.take n = [] then
        if client.unread = [] ∧ client.ended = true then some (client.finish q line []) else none
      else
        some { client with
          stage := some (.reading q (line ++ client.unread.take n))
          unread := client.unread.drop n }

/-- One step. -/
def step (d : UInt8) (request : Q → Bytes) (answer : Bytes → Bytes) (client : Client Q) :
    Label Q → Option (Client Q)
  | .call q =>
      match client.stage with
      | none => some { client with stage := some (.sending q (request q)) }
      | some _ => none
  | .write n =>
      match client.stage with
      | some (.sending q unsent) =>
          if unsent.drop n = [] then
            some { client with
              written := client.written ++ unsent
              stage := some (.reading q [])
              asked := client.asked ++ [q] }
          else
            some { client with
              written := client.written ++ unsent.take n
              stage := some (.sending q (unsent.drop n)) }
      | some (.reading _ _) | none => none
  | .reply bytes =>
      if client.ended = false ∧
          client.sent ++ bytes <+: joinLines d (client.replies d answer) then
        some { client with sent := client.sent ++ bytes, unread := client.unread ++ bytes }
      else none
  | .eof => some { client with ended := true }
  | .read n =>
      match client.stage with
      | some (.reading q line) => client.read d q line n
      | some (.sending _ _) | none => none
  | .drop =>
      match client.stage with
      | some (.sending _ _) => some { client with stage := none }
      | some (.reading _ _) => some { client with stage := none, dropped := client.dropped + 1 }
      | none => none

end Client

/-! ## Lines of the replies -/

/-- The first line is written with its delimiter. -/
theorem joinLines_cons (d : UInt8) (line : Bytes) (lines : List Bytes) :
    joinLines d (line :: lines) = line ++ d :: joinLines d lines := by
  rw [joinLines, List.flatMap_cons, ← joinLines, List.append_assoc, List.singleton_append]

/-- Lines are written one after the other. -/
theorem joinLines_append (d : UInt8) (lines more : List Bytes) :
    joinLines d (lines ++ more) = joinLines d lines ++ joinLines d more := List.flatMap_append

/-- More lines are written behind the ones before. -/
theorem joinLines_mono (d : UInt8) {lines more : List Bytes} (h : lines <+: more) :
    joinLines d lines <+: joinLines d more := by
  obtain ⟨rest, rfl⟩ := h
  exact ⟨joinLines d rest, (joinLines_append d lines rest).symm⟩

/-- What stands between the first lines and a delimiter is the next line. -/
theorem getElem?_of_joinLines {d : UInt8} {lines : List Bytes} (h : ∀ line ∈ lines, d ∉ line)
    {k : ℕ} {line rest : Bytes} (hline : d ∉ line)
    (hpre : joinLines d (lines.take k) ++ (line ++ d :: rest) <+: joinLines d lines) :
    lines[k]? = some line := by
  obtain ⟨more, hmore⟩ := hpre
  have hall : joinLines d lines = joinLines d (lines.take k) ++ joinLines d (lines.drop k) := by
    rw [← joinLines_append, List.take_append_drop]
  rw [hall, List.append_assoc] at hmore
  have htail := List.append_cancel_left hmore
  cases hdrop : lines.drop k with
  | nil =>
    rw [hdrop] at htail
    simp [joinLines] at htail
  | cons next others =>
    have hget : lines[k]? = some next := by
      have hhead := congrArg List.head? hdrop
      rwa [List.head?_drop, List.head?_cons] at hhead
    have hnext : d ∉ next := h next (List.mem_of_getElem? hget)
    rw [hdrop, joinLines_cons, List.append_assoc, List.cons_append] at htail
    have hfirst := congrArg (nextLine d) htail
    rw [nextLine_append hline, nextLine_append hnext] at hfirst
    have heq := List.append_cancel_right (congrArg Prod.fst hfirst)
    rw [hget, heq]

/-- Lines that begin a text of lines are its first lines. -/
theorem prefix_of_joinLines {d : UInt8} {lines more : List Bytes} (h : ∀ line ∈ lines, d ∉ line)
    (hmore : ∀ line ∈ more, d ∉ line) {rest : Bytes}
    (hpre : joinLines d lines ++ rest <+: joinLines d more) : lines <+: more := by
  induction lines generalizing more with
  | nil => exact List.nil_prefix
  | cons line lines ih =>
    rw [List.forall_mem_cons] at h
    rw [joinLines_cons, List.append_assoc, List.cons_append] at hpre
    have hfirst := getElem?_of_joinLines (k := 0) hmore h.1 hpre
    cases more with
    | nil => contradiction
    | cons first more =>
      obtain rfl := Option.some.inj hfirst
      rw [joinLines_cons, List.prefix_append_right_inj, List.prefix_cons_inj] at hpre
      exact (List.prefix_cons_inj _).mpr (ih h.2 (List.forall_mem_cons.mp hmore).2 hpre)

/-- What is split off is one line with its delimiter. -/
theorem splitAfter_eq_some {d : UInt8} {s line rest : Bytes}
    (h : splitAfter d s = some (line, rest)) :
    s = line ++ rest ∧ ∃ body, d ∉ body ∧ line = body ++ [d] := by
  induction s generalizing line with
  | nil => contradiction
  | cons b s ih =>
    rw [splitAfter] at h
    split at h
    · rename_i hb
      simp only [Option.some.injEq, Prod.mk.injEq] at h
      obtain ⟨rfl, rfl⟩ := h
      exact ⟨rfl, [], List.not_mem_nil, by rw [hb, List.nil_append]⟩
    · rename_i hb
      obtain ⟨⟨line', rest'⟩, hs, h⟩ := Option.map_eq_some_iff.mp h
      simp only [Prod.mk.injEq] at h
      obtain ⟨rfl, rfl⟩ := h
      obtain ⟨hall, body, hbody, rfl⟩ := ih hs
      refine ⟨congrArg (b :: ·) hall, b :: body, ?_, rfl⟩
      rw [List.mem_cons, not_or]
      exact ⟨Ne.symm hb, hbody⟩

/-! ## Calls and replies -/

namespace Client

variable {d : UInt8} {request : Q → Bytes} {answer : Bytes → Bytes}

/-- No reply holds the delimiter, if no answer does. -/
theorem notMem_of_mem_replies (hanswer : ∀ line, d ∉ answer line) {client : Client Q} :
    ∀ reply ∈ client.replies d answer, d ∉ reply := by
  intro reply hreply
  obtain ⟨line, -, rfl⟩ := List.mem_map.mp hreply
  exact hanswer line

/-- The calls that have read a whole line and those that came after the end of the stream. The
former have read, in order, the ends of the first replies, and `tail` of the next one. -/
structure Inv (d : UInt8) (answer : Bytes → Bytes) (client : Client Q)
    (full cut : List (Q × Bytes)) (tail : Bytes) : Prop where
  results : client.results = full ++ cut
  whole : ∀ r ∈ full, d ∈ r.2
  short : ∀ r ∈ cut, d ∉ r.2
  ended : cut ≠ [] → client.ended = true ∧ client.unread = []
  sent : client.sent <+: joinLines d (client.replies d answer)
  taken : client.sent = joinLines d ((client.replies d answer).take full.length) ++
    (tail ++ client.unread)
  clean : d ∉ tail
  few : full.length ≤ (client.replies d answer).length
  paired : List.Forall₂ (fun r reply => r.2 <:+ reply ++ [d]) full
    ((client.replies d answer).take full.length)
  reading : ∀ q line, client.stage = some (.reading q line) → line <:+ tail

/-- Before the first call nothing was answered or cut. -/
theorem inv_start : Inv d answer (start : Client Q) [] [] [] where
  results := rfl
  whole _ h := absurd h List.not_mem_nil
  short _ h := absurd h List.not_mem_nil
  ended h := absurd rfl h
  sent := List.nil_prefix
  taken := rfl
  clean := List.not_mem_nil
  few := Nat.zero_le _
  paired := .nil
  reading _ _ h := nomatch h

namespace Inv

variable {client : Client Q} {full cut : List (Q × Bytes)} {tail : Bytes}
  (h : Inv d answer client full cut tail)
include h

/-- More is written, or another call holds the lock. -/
theorem write (more : Bytes) (stage : Option (Stage Q)) (asked : List Q) (dropped : ℕ)
    (hstage : ∀ q line, stage = some (.reading q line) → line <:+ tail) :
    Inv d answer
      { client with written := client.written ++ more, stage, asked, dropped } full cut tail := by
  have hgrow : client.replies d answer <+:
      ((wholeLines d (client.written ++ more)).map answer) :=
    (wholeFrom_mono d [] client.written more).map answer
  have htake : ((wholeLines d (client.written ++ more)).map answer).take full.length =
      (client.replies d answer).take full.length := by
    obtain ⟨rest, hrest⟩ := hgrow
    rw [← hrest, List.take_append_of_le_length h.few]
  exact
    { results := h.results
      whole := h.whole
      short := h.short
      ended := h.ended
      sent := h.sent.trans (joinLines_mono d hgrow)
      taken := by
        dsimp only [replies]
        rw [htake]
        exact h.taken
      clean := h.clean
      few := h.few.trans hgrow.length_le
      paired := by
        dsimp only [replies]
        rw [htake]
        exact h.paired
      reading := hstage }

/-- Another call, or none, holds the lock. -/
theorem hold (stage : Option (Stage Q)) (dropped : ℕ)
    (hstage : ∀ q line, stage = some (.reading q line) → line <:+ tail) :
    Inv d answer { client with stage, dropped } full cut tail := by
  have hwrite := h.write [] stage client.asked dropped hstage
  rwa [List.append_nil] at hwrite

/-- The server may send a part of the replies. -/
theorem reply {bytes : Bytes} (hended : client.ended = false)
    (hbytes : client.sent ++ bytes <+: joinLines d (client.replies d answer)) :
    Inv d answer
      { client with sent := client.sent ++ bytes, unread := client.unread ++ bytes }
      full cut tail where
  results := h.results
  whole := h.whole
  short := h.short
  ended hne := absurd (hended.symm.trans (h.ended hne).1) Bool.false_ne_true
  sent := hbytes
  taken := by
    change client.sent ++ bytes = _ ++ (tail ++ (client.unread ++ bytes))
    rw [h.taken, List.append_assoc, List.append_assoc]
    rfl
  clean := h.clean
  few := h.few
  paired := h.paired
  reading := h.reading

/-- The server may end the stream. -/
theorem eof : Inv d answer { client with ended := true } full cut tail :=
  ⟨h.results, h.whole, h.short, fun hne => ⟨rfl, (h.ended hne).2⟩, h.sent, h.taken, h.clean, h.few,
    h.paired, h.reading⟩

/-- Without a delimiter in them, the bytes are a part of the line. -/
theorem readPart {q : Q} {line : Bytes} {n : ℕ}
    (hstage : client.stage = some (.reading q line)) (hnone : d ∉ client.unread.take n)
    (hsome : client.unread.take n ≠ []) :
    Inv d answer
      { client with
        stage := some (.reading q (line ++ client.unread.take n))
        unread := client.unread.drop n }
      full cut (tail ++ client.unread.take n) where
  results := h.results
  whole := h.whole
  short := h.short
  ended hne := absurd (h.ended hne).2 fun hnil => hsome (by rw [hnil, List.take_nil])
  sent := h.sent
  taken := by
    change client.sent = _ ++ (tail ++ client.unread.take n ++ client.unread.drop n)
    rw [List.append_assoc, List.take_append_drop]
    exact h.taken
  clean hmem := (List.mem_append.mp hmem).elim h.clean hnone
  few := h.few
  paired := h.paired
  reading q' line' hread := by
    obtain ⟨rfl, rfl⟩ := Stage.reading.inj (Option.some.inj hread)
    obtain ⟨lost, hlost⟩ := h.reading _ _ hstage
    exact ⟨lost, by rw [← hlost, List.append_assoc]⟩

/-- Up to the delimiter, they complete the line. -/
theorem readLine (hanswer : ∀ line, d ∉ answer line) {q : Q} {line more rest : Bytes}
    (hstage : client.stage = some (.reading q line))
    (hsplit : splitAfter d client.unread = some (more, rest)) :
    Inv d answer (client.finish q (line ++ more) rest) (full ++ [(q, line ++ more)]) cut [] := by
  obtain ⟨hunread, body, hbody, rfl⟩ := splitAfter_eq_some hsplit
  have hnext : (client.replies d answer)[full.length]? = some (tail ++ body) := by
    have hbefore : d ∉ tail ++ body := fun hmem => (List.mem_append.mp hmem).elim h.clean hbody
    have hsent := h.sent
    rw [h.taken, hunread, ← List.append_assoc tail, ← List.append_assoc tail,
      List.append_assoc _ [d], List.singleton_append] at hsent
    exact getElem?_of_joinLines (notMem_of_mem_replies hanswer) hbefore hsent
  have htake : (client.replies d answer).take (full.length + 1) =
      (client.replies d answer).take full.length ++ [tail ++ body] := by
    rw [List.take_add_one, hnext, Option.toList_some]
  have hcut : cut = [] := by
    by_contra hne
    have hnil := (h.ended hne).2
    rw [hunread] at hnil
    simp at hnil
  refine
    { results := ?_
      whole := ?_
      short := h.short
      ended := fun hne => absurd hcut hne
      sent := h.sent
      taken := ?_
      clean := List.not_mem_nil
      few := ?_
      paired := ?_
      reading := fun _ _ hread => nomatch hread }
  · simp [finish, h.results, hcut]
  · intro r hr
    rcases List.mem_append.mp hr with hr | hr
    · exact h.whole r hr
    · obtain rfl := List.mem_singleton.mp hr
      simp
  · rw [List.length_append, List.length_singleton]
    change client.sent =
      joinLines d ((client.replies d answer).take (full.length + 1)) ++ ([] ++ rest)
    rw [htake, joinLines_append, h.taken, hunread]
    simp [joinLines]
  · rw [List.length_append, List.length_singleton]
    exact (List.getElem?_eq_some_iff.mp hnext).1
  · rw [List.length_append, List.length_singleton]
    change List.Forall₂ _ _ ((client.replies d answer).take (full.length + 1))
    rw [htake]
    refine List.rel_append h.paired (.cons ?_ .nil)
    obtain ⟨lost, hlost⟩ := h.reading _ _ hstage
    exact ⟨lost, by rw [← hlost]; simp⟩

/-- At the end of the stream a call returns what it has. -/
theorem readEnd {q : Q} {line : Bytes} (hstage : client.stage = some (.reading q line))
    (hunread : client.unread = []) (hended : client.ended = true) :
    Inv d answer (client.finish q line []) full (cut ++ [(q, line)]) tail where
  results := by
    change client.results ++ [(q, line)] = full ++ (cut ++ [(q, line)])
    rw [h.results, List.append_assoc]
  whole := h.whole
  short r hr := by
    rcases List.mem_append.mp hr with hr | hr
    · exact h.short r hr
    · obtain rfl := List.mem_singleton.mp hr
      exact fun hmem => h.clean ((h.reading _ _ hstage).subset hmem)
  ended _ := ⟨hended, rfl⟩
  sent := h.sent
  taken := by
    change client.sent = _ ++ (tail ++ [])
    rw [← hunread]
    exact h.taken
  clean := h.clean
  few := h.few
  paired := h.paired
  reading _ _ hread := nomatch hread

end Inv

/-- What a call does that reads. -/
theorem read_eq_some {client next : Client Q} {q : Q} {line : Bytes} {n : ℕ}
    (h : client.read d q line n = some next) :
    (∃ more rest, splitAfter d client.unread = some (more, rest) ∧
        next = client.finish q (line ++ more) rest) ∨
      (client.unread = [] ∧ client.ended = true ∧ next = client.finish q line []) ∨
      (d ∉ client.unread.take n ∧ client.unread.take n ≠ [] ∧
        next = { client with
          stage := some (.reading q (line ++ client.unread.take n))
          unread := client.unread.drop n }) := by
  rw [read] at h
  split at h
  · rename_i more rest hsplit
    have hall := splitAfter_append_of_some hsplit (client.unread.drop n)
    rw [List.take_append_drop] at hall
    have hdrop : client.unread.drop more.length = rest ++ client.unread.drop n := by
      have hleft := congrArg (List.drop more.length) (splitAfter_eq_some hall).1
      rwa [List.drop_left] at hleft
    refine .inl ⟨more, _, hall, ?_⟩
    rw [← hdrop]
    exact (Option.some.inj h).symm
  · rename_i hnone
    split at h
    · obtain ⟨⟨hunread, hended⟩, heq⟩ := Option.ite_none_right_eq_some.mp h
      exact .inr (.inl ⟨hunread, hended, (Option.some.inj heq).symm⟩)
    · rename_i hsome
      exact .inr (.inr ⟨splitAfter_eq_none_iff.mp hnone, hsome, (Option.some.inj h).symm⟩)

/-- One step keeps the calls and the replies together. -/
theorem Inv.step (hanswer : ∀ line, d ∉ answer line) {client next : Client Q} {label : Label Q}
    {full cut : List (Q × Bytes)} {tail : Bytes} (h : Inv d answer client full cut tail)
    (hstep : client.step d request answer label = some next) :
    ∃ full' cut' tail', Inv d answer next full' cut' tail' := by
  cases label with
  | call q =>
    rw [Client.step] at hstep
    split at hstep
    · obtain rfl := Option.some.inj hstep
      exact ⟨full, cut, tail, h.hold _ _ fun _ _ hread => nomatch hread⟩
    · contradiction
  | write n =>
    rw [Client.step] at hstep
    split at hstep
    · split at hstep
      · obtain rfl := Option.some.inj hstep
        refine ⟨full, cut, tail, h.write _ _ _ _ fun q' line hread => ?_⟩
        obtain ⟨-, rfl⟩ := Stage.reading.inj (Option.some.inj hread)
        exact List.nil_suffix
      · obtain rfl := Option.some.inj hstep
        exact ⟨full, cut, tail, h.write _ _ _ _ fun _ _ hread => nomatch hread⟩
    · contradiction
    · contradiction
  | reply bytes =>
    obtain ⟨⟨hended, hbytes⟩, heq⟩ := Option.ite_none_right_eq_some.mp hstep
    obtain rfl := Option.some.inj heq
    exact ⟨full, cut, tail, h.reply hended hbytes⟩
  | eof =>
    obtain rfl := Option.some.inj hstep
    exact ⟨full, cut, tail, h.eof⟩
  | read n =>
    rw [Client.step] at hstep
    split at hstep
    · rename_i hstage
      rcases read_eq_some hstep with ⟨more, rest, hsplit, rfl⟩ | ⟨hunread, hended, rfl⟩ |
          ⟨hnone, hsome, rfl⟩
      · exact ⟨_, _, _, h.readLine hanswer hstage hsplit⟩
      · exact ⟨_, _, _, h.readEnd hstage hunread hended⟩
      · exact ⟨_, _, _, h.readPart hstage hnone hsome⟩
    · contradiction
    · contradiction
  | drop =>
    rw [Client.step] at hstep
    split at hstep
    · obtain rfl := Option.some.inj hstep
      exact ⟨full, cut, tail, h.hold _ _ fun _ _ hread => nomatch hread⟩
    · obtain rfl := Option.some.inj hstep
      exact ⟨full, cut, tail, h.hold _ _ fun _ _ hread => nomatch hread⟩
    · contradiction

/-- The calls and the replies are together. -/
def Paired (d : UInt8) (answer : Bytes → Bytes) (client : Client Q) : Prop :=
  ∃ full cut tail, Inv d answer client full cut tail

/-- In every run each result is paired with the reply to its call. -/
theorem paired_of_run (hanswer : ∀ line, d ∉ answer line) {labels : List (Label Q)}
    {last : Client Q} (hrun : run (step d request answer) start labels = some last) :
    Paired d answer last :=
  run_invariant (fun _ _ _ ⟨_, _, _, h⟩ hstep => h.step hanswer hstep) ⟨[], [], [], inv_start⟩ hrun

/-- Whatever was dropped and wherever, a call that returns a whole line has read the end of the
reply with its number; another one only returns after the end of the stream. -/
theorem suffix_of_results (hanswer : ∀ line, d ∉ answer line) {labels : List (Label Q)}
    {last : Client Q} (hrun : run (step d request answer) start labels = some last) {i : ℕ}
    {r : Q × Bytes} (hr : last.results[i]? = some r) :
    (d ∈ r.2 → ∃ reply, (last.replies d answer)[i]? = some reply ∧ r.2 <:+ reply ++ [d]) ∧
      (d ∉ r.2 → last.ended = true) := by
  obtain ⟨full, cut, tail, h⟩ := paired_of_run hanswer hrun
  rw [h.results] at hr
  by_cases hi : i < full.length
  · rw [List.getElem?_append_left hi] at hr
    have hmem := List.mem_of_getElem? hr
    refine ⟨fun _ => ?_, fun hnone => absurd (h.whole r hmem) hnone⟩
    obtain ⟨hlength, hpair⟩ := List.forall₂_iff_get.mp h.paired
    have hi' : i < ((last.replies d answer).take full.length).length := hlength ▸ hi
    have hone := hpair i hi hi'
    rw [List.get_eq_getElem, (List.getElem?_eq_some_iff.mp hr).2, List.get_eq_getElem,
      List.getElem_take] at hone
    exact ⟨_, List.getElem?_eq_getElem _, hone⟩
  · rw [List.getElem?_append_right (not_lt.mp hi)] at hr
    have hmem := List.mem_of_getElem? hr
    have hne : cut ≠ [] := fun hnil => by rw [hnil] at hmem; exact List.not_mem_nil hmem
    exact ⟨fun hsome => absurd hsome (h.short r hmem), fun _ => (h.ended hne).1⟩

/-! ## Whole requests and lines -/

/-- A call has written nothing, or it has written its request and read nothing. -/
def Left (request : Q → Bytes) : Option (Stage Q) → Prop
  | some (.sending q unsent) => unsent = request q
  | some (.reading _ line) => line = []
  | none => True

instance (request : Q → Bytes) : (stage : Option (Stage Q)) → Decidable (Left request stage)
  | some (.sending _ _) => inferInstanceAs (Decidable (_ = _))
  | some (.reading _ _) => inferInstanceAs (Decidable (_ = _))
  | none => inferInstanceAs (Decidable True)

/-- A call is only dropped between lines. -/
def Whole (request : Q → Bytes) (client : Client Q) : Label Q → Prop
  | .drop => Left request client.stage
  | .call _ | .write _ | .reply _ | .eof | .read _ => True

instance (request : Q → Bytes) (client : Client Q) :
    (label : Label Q) → Decidable (Whole request client label)
  | .drop => inferInstanceAs (Decidable (Left request client.stage))
  | .call _ | .write _ | .reply _ | .eof | .read _ => inferInstanceAs (Decidable True)

/-- What a call has read so far. -/
def held : Option (Stage Q) → Bytes
  | some (.reading _ line) => line
  | some (.sending _ _) | none => []

/-- The call that reads. -/
def reader : Option (Stage Q) → Option Q
  | some (.reading q _) => some q
  | some (.sending _ _) | none => none

/-- A request that is being written. -/
structure Sending (request : Q → Bytes) (stage : Option (Stage Q)) (part : Bytes) : Prop where
  begun : ∀ q unsent, stage = some (.sending q unsent) → part ++ unsent = request q ∧ unsent ≠ []
  idle : (∀ q unsent, stage ≠ some (.sending q unsent)) → part = []

/-- Nothing that was written or read is lost. -/
structure Kept (request : Q → Bytes) (client : Client Q) : Prop where
  written : ∃ part, client.written = client.asked.flatMap request ++ part ∧
    Sending request client.stage part
  sent : client.sent = (client.results.map Prod.snd).flatten ++ (held client.stage ++ client.unread)
  names : (client.results.map Prod.fst ++ (reader client.stage).toList).Sublist client.asked
  count : client.asked.length =
    client.results.length + (reader client.stage).toList.length + client.dropped

/-- A client that is not sending has nothing left to send. -/
theorem sending_of_none {request : Q → Bytes} {stage : Option (Stage Q)}
    (h : ∀ q unsent, stage ≠ some (.sending q unsent)) : Sending request stage [] :=
  ⟨fun q unsent heq => absurd heq (h q unsent), fun _ => rfl⟩

/-- A client starts with all its requests kept. -/
theorem kept_start : Kept request (start : Client Q) :=
  ⟨⟨[], rfl, sending_of_none fun _ _ h => nomatch h⟩, rfl, List.Sublist.refl _, rfl⟩

namespace Kept

variable {client : Client Q} (h : Kept request client)
include h

/-- A new call keeps the requests, if it has something to send. -/
theorem call {q : Q} (hrequest : request q ≠ []) (hnone : client.stage = none) :
    Kept request { client with stage := some (.sending q (request q)) } := by
  obtain ⟨part, hwritten, hsending⟩ := h.written
  obtain rfl := hsending.idle (by simp [hnone])
  refine ⟨⟨[], hwritten, ⟨fun q' unsent heq => ?_, fun hne => absurd rfl (hne q (request q))⟩⟩, ?_,
    ?_, ?_⟩
  · obtain ⟨rfl, rfl⟩ := Stage.sending.inj (Option.some.inj heq)
    exact ⟨rfl, hrequest⟩
  · simpa [hnone, held] using h.sent
  · simpa [hnone, reader] using h.names
  · simpa [hnone, reader] using h.count

/-- A write keeps the requests. -/
theorem write {q : Q} {unsent : Bytes} (hstage : client.stage = some (.sending q unsent)) (n : ℕ) :
    (unsent.drop n = [] → Kept request { client with
      written := client.written ++ unsent
      stage := some (.reading q [])
      asked := client.asked ++ [q] }) ∧
    (unsent.drop n ≠ [] → Kept request { client with
      written := client.written ++ unsent.take n
      stage := some (.sending q (unsent.drop n)) }) := by
  obtain ⟨part, hwritten, hsending⟩ := h.written
  obtain ⟨hpart, -⟩ := hsending.begun q unsent hstage
  constructor
  · intro _
    refine ⟨⟨[], ?_, sending_of_none fun _ _ heq => nomatch heq⟩, ?_, ?_, ?_⟩
    · simp [hwritten, ← hpart]
    · simpa [hstage, held] using h.sent
    · have hnames := h.names
      rw [hstage] at hnames
      exact List.Sublist.append (by simpa [reader] using hnames) (List.Sublist.refl [q])
    · have hcount := h.count
      rw [hstage] at hcount
      simp only [reader, Option.toList_none, List.length_nil] at hcount
      simp [reader, hcount]
      omega
  · intro hmore
    refine ⟨⟨part ++ unsent.take n, ?_, ⟨fun q' unsent' heq => ?_, fun hne => ?_⟩⟩, ?_, ?_, ?_⟩
    · simp [hwritten]
    · obtain ⟨rfl, rfl⟩ := Stage.sending.inj (Option.some.inj heq)
      exact ⟨by rw [List.append_assoc, List.take_append_drop, hpart], hmore⟩
    · exact absurd rfl (hne q (unsent.drop n))
    · simpa [hstage, held] using h.sent
    · simpa [hstage, reader] using h.names
    · simpa [hstage, reader] using h.count

/-- A reply of the server changes no request. -/
theorem reply (bytes : Bytes) :
    Kept request
      { client with sent := client.sent ++ bytes, unread := client.unread ++ bytes } :=
  ⟨h.written, by simp [h.sent], h.names, h.count⟩

/-- A call that ends with its line keeps the requests. -/
theorem finish {q : Q} {line : Bytes} (hstage : client.stage = some (.reading q line))
    {more rest : Bytes} (hunread : client.unread = more ++ rest) :
    Kept request (client.finish q (line ++ more) rest) := by
  obtain ⟨part, hwritten, hsending⟩ := h.written
  obtain rfl := hsending.idle (by simp [hstage])
  refine ⟨⟨[], hwritten, sending_of_none fun _ _ heq => nomatch heq⟩, ?_, ?_, ?_⟩
  · have hsent := h.sent
    rw [hstage, hunread] at hsent
    simpa [Client.finish, held] using hsent
  · have hnames := h.names
    rw [hstage] at hnames
    simpa [Client.finish, reader] using hnames
  · have hcount := h.count
    rw [hstage] at hcount
    simp only [reader, Option.toList_some, List.length_singleton] at hcount
    simp [Client.finish, reader, hcount]

/-- A part of a line that is read keeps the requests. -/
theorem readPart {q : Q} {line : Bytes} (hstage : client.stage = some (.reading q line)) (n : ℕ) :
    Kept request { client with
      stage := some (.reading q (line ++ client.unread.take n))
      unread := client.unread.drop n } := by
  obtain ⟨part, hwritten, hsending⟩ := h.written
  obtain rfl := hsending.idle (by simp [hstage])
  refine ⟨⟨[], hwritten, sending_of_none fun _ _ heq => nomatch heq⟩, ?_, ?_, ?_⟩
  · have hsent := h.sent
    rw [hstage] at hsent
    simpa [held] using hsent
  · simpa [hstage, reader] using h.names
  · simpa [hstage, reader] using h.count

/-- A call that is dropped before it was sent keeps the requests. -/
theorem dropSending {q : Q} (hstage : client.stage = some (.sending q (request q))) :
    Kept request { client with stage := none } := by
  obtain ⟨part, hwritten, hsending⟩ := h.written
  obtain ⟨hpart, -⟩ := hsending.begun q _ hstage
  obtain rfl : part = [] := List.append_left_eq_self.mp hpart
  refine ⟨⟨[], hwritten, sending_of_none fun _ _ heq => nomatch heq⟩, ?_, ?_, ?_⟩
  · simpa [hstage, held] using h.sent
  · simpa [hstage, reader] using h.names
  · simpa [hstage, reader] using h.count

/-- A call that is dropped before it has read anything keeps the requests. -/
theorem dropReading {q : Q} (hstage : client.stage = some (.reading q [])) :
    Kept request { client with stage := none, dropped := client.dropped + 1 } := by
  obtain ⟨part, hwritten, hsending⟩ := h.written
  obtain rfl := hsending.idle (by simp [hstage])
  refine ⟨⟨[], hwritten, sending_of_none fun _ _ heq => nomatch heq⟩, ?_, ?_, ?_⟩
  · simpa [hstage, held] using h.sent
  · have hnames := h.names
    rw [hstage] at hnames
    simpa [reader] using (List.sublist_append_left _ _).trans hnames
  · have hcount := h.count
    rw [hstage] at hcount
    simp only [reader, Option.toList_some, List.length_singleton] at hcount
    simp [reader, hcount]
    omega

end Kept

/-- Every step without a half call keeps the requests. -/
theorem Kept.step {client next : Client Q} {label : Label Q} (hrequest : ∀ q, request q ≠ [])
    (h : Kept request client) (hwhole : Whole request client label)
    (hstep : client.step d request answer label = some next) : Kept request next := by
  cases label with
  | call q =>
    rw [Client.step] at hstep
    split at hstep
    · rename_i hnone
      obtain rfl := Option.some.inj hstep
      exact h.call (hrequest q) hnone
    · contradiction
  | write n =>
    rw [Client.step] at hstep
    split at hstep
    · rename_i hstage
      split at hstep
      · rename_i hall
        obtain rfl := Option.some.inj hstep
        exact (h.write hstage n).1 hall
      · rename_i hmore
        obtain rfl := Option.some.inj hstep
        exact (h.write hstage n).2 hmore
    · contradiction
    · contradiction
  | reply bytes =>
    obtain ⟨-, heq⟩ := Option.ite_none_right_eq_some.mp hstep
    obtain rfl := Option.some.inj heq
    exact h.reply bytes
  | eof =>
    obtain rfl := Option.some.inj hstep
    exact ⟨h.written, h.sent, h.names, h.count⟩
  | read n =>
    rw [Client.step] at hstep
    split at hstep
    · rename_i hstage
      rcases read_eq_some hstep with ⟨more, rest, hsplit, rfl⟩ | ⟨hunread, -, rfl⟩ | ⟨-, -, rfl⟩
      · exact h.finish hstage (splitAfter_eq_some hsplit).1
      · have hnone : client.unread = [] ++ [] := hunread
        have hend := h.finish hstage hnone
        rwa [List.append_nil] at hend
      · exact h.readPart hstage n
    · contradiction
    · contradiction
  | drop =>
    rw [Client.step] at hstep
    rw [Whole] at hwhole
    split at hstep
    · rename_i hstage
      rw [hstage, Left] at hwhole
      obtain rfl := Option.some.inj hstep
      exact h.dropSending (hwhole ▸ hstage)
    · rename_i hstage
      rw [hstage, Left] at hwhole
      obtain rfl := Option.some.inj hstep
      exact h.dropReading (hwhole ▸ hstage)
    · contradiction

/-- The requests that were written are whole lines. -/
theorem Kept.replies_eq {body : Q → Bytes} (hbody : ∀ q, d ∉ body q) {client : Client Q}
    (h : Kept (fun q => body q ++ [d]) client) :
    client.replies d answer = client.asked.map fun q => answer (body q ++ [d]) := by
  obtain ⟨part, hwritten, hsending⟩ := h.written
  have hpart : d ∉ part := by
    by_cases hstage : ∃ q unsent, client.stage = some (.sending q unsent)
    · obtain ⟨q, unsent, hstage⟩ := hstage
      obtain ⟨hrequest, hmore⟩ := hsending.begun q unsent hstage
      have hpre : part <+: body q := by
        rcases List.prefix_concat_iff.mp ⟨unsent, hrequest⟩ with heq | hpre
        · rw [heq] at hrequest
          exact absurd (List.append_right_eq_self.mp hrequest) hmore
        · exact hpre
      exact fun hmem => hbody q (hpre.subset hmem)
    · rw [hsending.idle fun q unsent heq => hstage ⟨q, unsent, heq⟩]
      exact List.not_mem_nil
  rw [replies, hwritten, wholeLines_flatMap hbody _ hpart, List.map_map]
  rfl

/-- The lines that were read, with the cut one, are lines of the server. -/
theorem Inv.exists_lines (hanswer : ∀ line, d ∉ answer line) {client : Client Q}
    {full cut : List (Q × Bytes)} {tail : Bytes} (h : Inv d answer client full cut tail) :
    ∃ lines : List Bytes, full.map Prod.snd = lines.map (· ++ [d]) ∧ ∀ line ∈ lines, d ∉ line := by
  have hline : ∀ r ∈ full, ∃ line, r.2 = line ++ [d] ∧ d ∉ line := by
    intro r hr
    obtain ⟨i, hi⟩ := List.mem_iff_getElem?.mp hr
    have hlt := (List.getElem?_eq_some_iff.mp hi).1
    obtain ⟨hlength, hpair⟩ := List.forall₂_iff_get.mp h.paired
    have hone := hpair i hlt (hlength ▸ hlt)
    rw [List.get_eq_getElem, (List.getElem?_eq_some_iff.mp hi).2] at hone
    rcases List.suffix_concat_iff.mp hone with hnil | ⟨line, heq, hsuffix⟩
    · exact absurd (h.whole r hr) (by rw [hnil]; exact List.not_mem_nil)
    · refine ⟨line, heq, fun hmem => ?_⟩
      have hreply := List.mem_of_mem_take (List.get_mem _ ⟨i, hlength ▸ hlt⟩)
      exact notMem_of_mem_replies hanswer _ hreply (hsuffix.subset hmem)
  refine ⟨full.map fun r => r.2.dropLast, ?_, ?_⟩
  · rw [List.map_map]
    refine List.map_congr_left fun r hr => ?_
    obtain ⟨line, heq, -⟩ := hline r hr
    simp [heq]
  · intro line hmem
    obtain ⟨r, hr, rfl⟩ := List.mem_map.mp hmem
    obtain ⟨line, heq, hclean⟩ := hline r hr
    rwa [heq, List.dropLast_concat]

/-- If only whole requests and lines were left behind, the calls that return a whole line have the
replies to the first requests, in their order, whoever has written them; the ones that return are,
in order, among those that have written their requests, and all of these if none was dropped. -/
theorem results_of_whole {body : Q → Bytes} (hbody : ∀ q, d ∉ body q)
    (hanswer : ∀ line, d ∉ answer line) {labels : List (Label Q)} {last : Client Q}
    (hwhole : Along (step d (fun q => body q ++ [d]) answer) (Whole fun q => body q ++ [d]) start
      labels)
    (hrun : run (step d (fun q => body q ++ [d]) answer) start labels = some last) :
    (∀ (i : ℕ) (r : Q × Bytes), last.results[i]? = some r → d ∈ r.2 →
        ∃ q, last.asked[i]? = some q ∧ r.2 = answer (body q ++ [d]) ++ [d]) ∧
      (last.results.map Prod.fst).Sublist last.asked ∧
      (last.dropped = 0 → last.results.map Prod.fst <+: last.asked) := by
  have hrequest : ∀ q, body q ++ [d] ≠ [] := fun q => List.append_ne_nil_of_right_ne_nil _ (by simp)
  have hkept : Kept (fun q => body q ++ [d]) last :=
    run_invariant_along (fun _ _ _ h hw hstep => h.step hrequest hw hstep) kept_start hwhole hrun
  obtain ⟨full, cut, tail, h⟩ := paired_of_run hanswer hrun
  refine ⟨fun i r hr hd => ?_, (List.sublist_append_left _ _).trans hkept.names, fun hzero => ?_⟩
  · obtain ⟨lines, hlines, hclean⟩ := h.exists_lines hanswer
    have hsent := h.sent
    rw [hkept.sent, h.results, List.map_append, hlines, List.flatten_append, List.append_assoc,
      ← List.flatMap_def, ← joinLines] at hsent
    obtain ⟨more, hmore⟩ := prefix_of_joinLines hclean (notMem_of_mem_replies hanswer) hsent
    have hi : i < full.length := by
      by_contra hge
      rw [h.results, List.getElem?_append_right (not_lt.mp hge)] at hr
      exact h.short r (List.mem_of_getElem? hr) hd
    rw [h.results, List.getElem?_append_left hi] at hr
    have hsnd : (full.map Prod.snd)[i]? = some r.2 := by rw [List.getElem?_map, hr]; rfl
    rw [hlines, List.getElem?_map] at hsnd
    obtain ⟨line, hline, heq⟩ := Option.map_eq_some_iff.mp hsnd
    have hreply : (last.replies d answer)[i]? = some line := by
      rw [← hmore, List.getElem?_append_left (List.getElem?_eq_some_iff.mp hline).1, hline]
    rw [hkept.replies_eq hbody, List.getElem?_map] at hreply
    obtain ⟨q, hq, rfl⟩ := Option.map_eq_some_iff.mp hreply
    exact ⟨q, hq, heq.symm⟩
  · have hcount := hkept.count
    have hall := hkept.names.eq_of_length (by simp [hcount, hzero])
    exact ⟨_, hall⟩

end Client

end LineCalls

end Bqti.Core
