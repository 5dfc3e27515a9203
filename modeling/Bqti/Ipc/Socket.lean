import Bqti.Core.JsonLines
import Bqti.Ipc.Wire

/-!
# The socket of the daemon

A client writes a request as a line and reads the reply, and the daemon reads one request from
every connection. After a request for the stream of events it goes on with the events of its
snapshot and with those that it receives, until a client lags behind. The bytes may arrive in
any pieces, and the connection may be lost at any byte.
-/

namespace Bqti.Ipc.Socket

open Bqti.Core Bqti.Core.Json Bqti.Ipc.Wire

/-! ## Lines -/

/-- A message with its line break. -/
def line {α : Type} (form : Form α) (message : α) : Bytes :=
  bytes (form.write message) ++ [newline]

/-- The message of a line. -/
def ofLine {α : Type} (form : Form α) (buf : Bytes) : Option α := (Json.ofLine buf).bind form.read

/-- A line is a stream of one value. -/
theorem line_eq_stream {α : Type} (form : Form α) (message : α) :
    line form message = stream [form.write message] := by
  rw [stream_cons]
  rfl

/-- A message is written on one line. -/
theorem newline_notMem_write {α : Type} {form : Form α} (h : form.Lawful) (message : α) :
    newline ∉ bytes (form.write message) := newline_notMem_bytes (h.wellFormed message)

/-- A message is read back from its line. -/
theorem ofLine_line {α : Type} {form : Form α} (h : form.Lawful) (message : α) :
    ofLine form (line form message) = some message := by
  rw [ofLine, line, ofLine_bytes_newline (h.wellFormed message), Option.bind_some, h.read_write]

/-! ## The client -/

/-- The reply that `Socket::send` reads, and the reader behind it. -/
def readReply (reader : BufReader) : Option Reply × BufReader :=
  let out := reader.readUntil newline
  (ofLine reply out.1, out.2)

/-- The events that a client gets up to the end of the stream; a line that is no event is an
error. -/
def eventStream (reader : BufReader) : List (Option Event) :=
  (reader.readLines newline (reader.rest.length + 1)).map (ofLine event)

/-! ## The daemon -/

/-- What the channel of events gives to the task of a client. -/
inductive Received
  | event (event : Event)
  | closed
  | lagged (n : Nat)

/-- The notice for a client that lags behind. -/
def lagNotice (n : Nat) : Reply := .error ("lagged: missed " ++ toString n ++ " events")

/-- What is written for the events of the channel. -/
def forwardEvents : List Received → Bytes
  | [] => []
  | .event e :: rest => line event e ++ forwardEvents rest
  | .closed :: _ => []
  | .lagged n :: _ => line reply (lagNotice n)

/-- What is written to a client of the stream of events. -/
def handleEventStream (snapshot : List Event) (received : List Received) : Bytes :=
  snapshot.flatMap (line event) ++ forwardEvents received

/-- What a connection leads to: the request that is dispatched, and what is written. The text of
the error for a line that is no request is a parameter. -/
def handleClient (errorText : Bytes → String) (dispatch : Request → Reply)
    (snapshot : List Event) (received : List Received) (reader : BufReader) :
    Option Request × Bytes :=
  let buf := (reader.readUntil newline).1
  if buf = [] then (none, [])
  else
    match ofLine request buf with
    | some r =>
        (some r, line reply (dispatch r) ++
          if r = .eventStream then handleEventStream snapshot received else [])
    | none => (none, line reply (.error ("invalid request: " ++ errorText buf)))

/-! ## Requests -/

/-- Requests and events are written as objects. -/
theorem request_isRecord (r : Request) : IsRecord (request.write r) := by
  refine ⟨request_lawful.wellFormed r, ?_⟩
  cases r <;> exact ⟨_, rfl⟩

/-- An event is written as a record. -/
theorem event_isRecord (e : Event) : IsRecord (event.write e) := by
  refine ⟨event_lawful.wellFormed e, ?_⟩
  cases e <;> exact ⟨_, rfl⟩

/-- A reply is written as a record. -/
theorem reply_isRecord (r : Reply) : IsRecord (reply.write r) := by
  refine ⟨reply_lawful.wellFormed r, ?_⟩
  cases r <;> exact ⟨_, rfl⟩

/-- The first line of a stream. -/
theorem readUntil_line {α : Type} {form : Form α} (h : form.Lawful) (message : α)
    {reader : BufReader} {rest : Bytes} (hrest : reader.rest = line form message ++ rest) :
    (reader.readUntil newline).1 = line form message ∧
      (reader.readUntil newline).2.rest = rest := by
  have hnext := nextLine_append (newline_notMem_write h message) rest
  rw [line, List.append_assoc, List.singleton_append] at hrest
  rw [readUntil_fst, rest_readUntil, hrest, hnext]
  exact ⟨rfl, rfl⟩

/-- The beginning of a line, without its break. -/
theorem readUntil_cut {α : Type} {form : Form α} (h : form.Lawful) (message : α)
    {reader : BufReader} (hrest : reader.rest <+: bytes (form.write message)) :
    (reader.readUntil newline).1 = reader.rest := by
  have hnone : newline ∉ reader.rest := fun hmem =>
    newline_notMem_write h message (hrest.subset hmem)
  rw [readUntil_fst, nextLine_of_notMem hnone]

section Requests

variable (errorText : Bytes → String) (dispatch : Request → Reply) (snapshot : List Event)
  (received : List Received)

/-- A whole request is dispatched and answered. -/
theorem handleClient_of_ofLine {r : Request} {server : BufReader}
    (h : ofLine request (server.readUntil newline).1 = some r)
    (hne : (server.readUntil newline).1 ≠ []) :
    handleClient errorText dispatch snapshot received server =
      (some r, line reply (dispatch r) ++
        if r = .eventStream then handleEventStream snapshot received else []) := by
  rw [handleClient, if_neg hne, h]

/-- A request is answered, and behind the reply comes the stream of events if it asks for one. -/
theorem handleClient_line {r : Request} {server : BufReader} (h : server.rest = line request r) :
    handleClient errorText dispatch snapshot received server =
      (some r, line reply (dispatch r) ++
        if r = .eventStream then handleEventStream snapshot received else []) := by
  have hread := (@readUntil_line _ _ request_lawful r server [] (by rw [h, List.append_nil])).1
  have hne : line request r ≠ [] := List.append_ne_nil_of_right_ne_nil _ (List.cons_ne_nil _ _)
  exact handleClient_of_ofLine errorText dispatch snapshot received
    (by rw [hread, ofLine_line request_lawful]) (by rwa [hread])

/-- In whatever pieces a request and its reply arrive: the daemon dispatches this request, the
client gets what it was answered, and behind the reply only the stream of events can follow. -/
theorem readReply_handleClient {r : Request} {server client : BufReader}
    (hserver : server.rest = line request r)
    (hclient : client.rest = (handleClient errorText dispatch snapshot received server).2) :
    (handleClient errorText dispatch snapshot received server).1 = some r ∧
      (readReply client).1 = some (dispatch r) ∧
      (readReply client).2.rest =
        if r = .eventStream then handleEventStream snapshot received else [] := by
  rw [handleClient_line errorText dispatch snapshot received hserver] at hclient ⊢
  obtain ⟨hline, hrest⟩ := readUntil_line reply_lawful (dispatch r) hclient
  refine ⟨rfl, ?_, hrest⟩
  rw [readReply, hline, ofLine_line reply_lawful]

/-- A request that arrives in two pieces. -/
theorem readReply_handleClient_pieces :
    (readReply ⟨[], [(handleClient (fun _ => "") (fun _ => .ok .handled) [] []
      ⟨[], [(line request .shutdown).take 5, (line request .shutdown).drop 5]⟩).2]⟩).1 =
        some (.ok .handled) :=
  (@readReply_handleClient (fun _ => "") (fun _ => .ok .handled) [] [] .shutdown
    ⟨[], [(line request .shutdown).take 5, (line request .shutdown).drop 5]⟩ _
    (by simp [BufReader.rest]) (by simp [BufReader.rest])).2.1

/-- A connection that is lost while a request is on its way: the daemon dispatches the request
precisely when its whole text arrived, and otherwise nothing. -/
theorem handleClient_cut {r : Request} {server : BufReader}
    (hserver : server.rest <+: line request r) :
    (handleClient errorText dispatch snapshot received server).1 =
      if (bytes (request.write r)).length ≤ server.rest.length then some r else none := by
  rcases List.prefix_concat_iff.mp hserver with hwhole | hcut
  · have hle : (bytes (request.write r)).length ≤ server.rest.length := by
      rw [hwhole, List.length_append]
      omega
    rw [handleClient_line errorText dispatch snapshot received hwhole, if_pos hle]
  · have hread := readUntil_cut request_lawful r hcut
    by_cases hall : server.rest = bytes (request.write r)
    · have hne : server.rest ≠ [] := hall ▸ bytes_ne_nil (request_lawful.wellFormed r)
      have hparse : ofLine request server.rest = some r := by
        rw [ofLine, hall, ofLine_bytes (request_lawful.wellFormed r), Option.bind_some,
          request_lawful.read_write]
      have hle : (bytes (request.write r)).length ≤ server.rest.length := by rw [hall]
      rw [handleClient_of_ofLine errorText dispatch snapshot received
        (by rw [hread, hparse]) (by rwa [hread]), if_pos hle]
    · have hlt : ¬ (bytes (request.write r)).length ≤ server.rest.length := fun hle =>
        hall (hcut.eq_of_length_le hle)
      have hnone : ofLine request server.rest = none := by
        rw [ofLine, ofLine_cut (request_isRecord r) hcut hall, Option.bind_none]
      rw [handleClient, hread, hnone, if_neg hlt]
      split <;> rfl

/-- Of the request to shut down only five bytes arrive. -/
theorem handleClient_cut_shutdown :
    (handleClient (fun _ => "") (fun _ => .ok .handled) [] []
      ⟨[], [(line request .shutdown).take 5]⟩).1 = none := by
  rw [handleClient_cut (r := .shutdown) (fun _ => "") (fun _ => .ok .handled) [] []
    (by simp [BufReader.rest, List.take_prefix]), if_neg (by decide +kernel)]

end Requests

/-! ## Events -/

/-- The events of the channel up to its end. -/
def sent : List Received → List Event
  | .event e :: rest => e :: sent rest
  | [] | .closed :: _ | .lagged _ :: _ => []

/-- How many events a client has missed when the daemon gives it up. -/
def missed : List Received → Option Nat
  | .event _ :: rest => missed rest
  | .lagged n :: _ => some n
  | [] | .closed :: _ => none

/-- The values of a stream of events. -/
def eventValues (events : List Event) (missed : Option Nat) : List Value :=
  events.map event.write ++ (missed.map fun n => reply.write (lagNotice n)).toList

/-- What is forwarded is a stream of values. -/
theorem forwardEvents_eq (received : List Received) :
    forwardEvents received = stream (eventValues (sent received) (missed received)) := by
  induction received with
  | nil => rfl
  | cons first rest ih =>
    cases first with
    | event e =>
      rw [forwardEvents, ih, line_eq_stream, ← stream_append]
      rfl
    | closed => rfl
    | lagged n =>
      rw [forwardEvents, line_eq_stream]
      rfl

/-- Events are written line by line. -/
theorem flatMap_line_event (events : List Event) :
    events.flatMap (line event) = stream (events.map event.write) := by
  induction events with
  | nil => rfl
  | cons e events ih =>
    rw [List.flatMap_cons, ih, line_eq_stream, ← stream_append]
    rfl

/-- A stream of events is the snapshot and what was sent, up to an error. -/
theorem handleEventStream_eq (snapshot : List Event) (received : List Received) :
    handleEventStream snapshot received =
      stream (eventValues (snapshot ++ sent received) (missed received)) := by
  rw [handleEventStream, flatMap_line_event, forwardEvents_eq, ← stream_append, eventValues,
    eventValues, List.map_append, List.append_assoc]

/-- All values of a stream of events are records. -/
theorem eventValues_isRecord {events : List Event} {missed : Option Nat} :
    ∀ v ∈ eventValues events missed, IsRecord v := by
  intro v hv
  rcases List.mem_append.mp hv with hevent | hnotice
  · obtain ⟨e, -, rfl⟩ := List.mem_map.mp hevent
    exact event_isRecord e
  · obtain ⟨n, -, rfl⟩ := Option.map_eq_some_iff.mp (Option.mem_toList.mp hnotice)
    exact reply_isRecord _

/-- The events among the first values of a stream, and the error for the notice. -/
theorem take_eventValues (events : List Event) (missed : Option Nat) (k : Nat) :
    ((eventValues events missed).take k).map (fun v => event.read v) =
      (events.take k).map some ++
        if events.length < k ∧ missed.isSome = true then [none] else [] := by
  have hevents : ∀ es : List Event, (es.map event.write).map (fun v => event.read v) =
      es.map some := fun es => by
    rw [List.map_map]
    exact List.map_congr_left fun e _ => event_lawful.read_write e
  rw [eventValues, List.take_append, List.map_append, ← List.map_take, hevents, List.length_map]
  congr 1
  cases missed with
  | none => simp
  | some n =>
    cases hk : k - events.length with
    | zero =>
      have hle : ¬ events.length < k := by omega
      simp [hle]
    | succ m =>
      have hlt : events.length < k := by omega
      simp [hlt, event_read_reply]

/-- A client that was cut off or given up at some place has got the first of the events in
their order, all of these whose lines arrived whole, and then at most one error. When everything
arrived there is an error precisely when it was told that it lags behind. -/
theorem eventStream_of_received {snapshot : List Event} {received : List Received}
    {reader : BufReader} (h : reader.rest <+: handleEventStream snapshot received) :
    ∃ (k : Nat) (failed : Bool),
      eventStream reader = ((snapshot ++ sent received).take k).map some ++
        (if failed then [none] else []) ∧
      (∀ j ≤ (snapshot ++ sent received).length,
        (((snapshot ++ sent received).take j).flatMap (line event)).length ≤ reader.rest.length →
          j ≤ k) ∧
      (reader.rest = handleEventStream snapshot received → failed = (missed received).isSome) := by
  rw [handleEventStream_eq] at h ⊢
  generalize snapshot ++ sent received = events at h ⊢
  obtain ⟨k, cut, hdecode, hbound, hcut⟩ := decodeLines_of_prefix eventValues_isRecord h
  have hstream : eventStream reader =
      (decodeLines reader).map fun v => v.bind event.read := by
    rw [eventStream, decodeLines, List.map_map]
    rfl
  have hread : eventStream reader = (events.take k).map some ++
      ((if events.length < k ∧ (missed received).isSome = true then [none] else []) ++
        if cut = true then [none] else []) := by
    rw [hstream, hdecode, List.map_append, List.map_map, ← List.append_assoc, ← take_eventValues]
    congr 1
    cases cut <;> rfl
  have hlength : (eventValues events (missed received)).length =
      events.length + if (missed received).isSome then 1 else 0 := by
    cases hmissed : missed received <;> simp [eventValues]
  have htake : ∀ j ≤ events.length, (events.take j).flatMap (line event) =
      stream ((eventValues events (missed received)).take j) := by
    intro j hj
    rw [eventValues, List.take_append_of_le_length (by simpa using hj), ← List.map_take,
      flatMap_line_event]
  refine ⟨k, cut || (decide (events.length < k) && (missed received).isSome), ?_, ?_, ?_⟩
  · rw [hread]
    congr 1
    cases cut with
    | false => simp
    | true =>
      -- The notice is the last line, so that a line that was cut off is not behind it.
      have hk := (hcut rfl).1
      have hnot : ¬ (events.length < k ∧ (missed received).isSome = true) := by
        rintro ⟨hlt, hsome⟩
        rw [hlength, if_pos hsome] at hk
        omega
      rw [if_neg hnot]
      rfl
  · intro j hj hle
    rw [htake j hj] at hle
    exact hbound j (by rw [hlength]; omega) hle
  · intro hall
    have hnocut : cut = false := by
      by_contra hne
      exact (hcut (Bool.eq_true_of_not_eq_false hne)).2 hall
    have hwhole := hbound _ le_rfl (by rw [List.take_length, hall])
    rw [hlength] at hwhole
    cases hsome : (missed received).isSome with
    | false => rw [hnocut, Bool.and_false, Bool.or_false]
    | true =>
      rw [hsome, if_pos rfl] at hwhole
      have hlt : events.length < k := by omega
      rw [hnocut, decide_eq_true hlt]
      rfl

/-- A client that lags behind after one event and gets everything that is written to it. -/
theorem eventStream_of_received_lagged : ∃ k failed,
    eventStream ⟨[], [handleEventStream [] [.event (.torrentRemoved "a"), .lagged 3]]⟩ =
      (([.torrentRemoved "a"] : List Event).take k).map some ++ (if failed then [none] else []) ∧
    failed = true := by
  obtain ⟨k, failed, hitems, -, hfailed⟩ := @eventStream_of_received
    [] [.event (.torrentRemoved "a"), .lagged 3]
    ⟨[], [handleEventStream [] [.event (.torrentRemoved "a"), .lagged 3]]⟩
    (by simp [BufReader.rest])
  exact ⟨k, failed, hitems, hfailed (by simp [BufReader.rest])⟩

end Bqti.Ipc.Socket
