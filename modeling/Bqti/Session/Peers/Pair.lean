import Bqti.Session.Peers.Step

/-!
# Two nodes with the same torrent

Two nodes are joined by a reliable link that keeps the order of messages. Each of them may
discover the other one once, and dials it then; the messages it receives are handled in order,
one at a time. Every step is one step of a task, so dials and handlers of both nodes may be
interleaved in every way. Nothing is lost and no time runs out.
-/

namespace Bqti.Session.Peers

open Bqti.Core Bqti.Dht Bqti.Torrent
open Bqti.Session.Routing (StandardMessage SessionManager)

variable {D P S A : Type*}

/-- Two nodes, their addresses and the tables by which messages find their session. -/
structure Nodes (D P S A : Type*) where
  host : Bool → Host D P S
  addr : Bool → A
  manager : Bool → SessionManager A
  sameTorrent : ∀ x, (host !x).infoHash = (host x).infoHash
  known : ∀ x, (manager x).byHash (host x).infoHash = some (host x).session

/-- One of the nodes: its session, its dial once it has discovered the other node, the handler of
the last message it took, and the number of messages it has taken. -/
structure Party (D A : Type*) where
  session : TorrentSession D A
  dial : Option (Pc A)
  handler : Pc A
  handled : Nat

/-- What a node does next. -/
inductive Turn
  | discover
  | dial
  | take
  | handle (choice : Choice)
  | setMode (mode : ActiveMode)
  | load (bitfield : BitField)

/-- Messages are not lost. -/
def Choice.reliable : Choice → Bool
  | .go | .answer _ _ | .target _ true => true
  | .fail | .target _ false => false

/-- The messages of a history, oldest first. -/
def sentMessages : List Event → List StandardMessage
  | [] => []
  | .sent message :: events => sentMessages events ++ [message]
  | _ :: events => sentMessages events

namespace Party

/-- A node at its start. -/
def new (host : Host D P S) (manager : SessionManager A) (mode : ActiveMode) : Party D A where
  session := (System.new host manager mode).session
  dial := none
  handler := .finished
  handled := 0

/-- What a node has sent to the other one. -/
def wire (p : Party D A) (peer : A) : List StandardMessage := sentMessages (p.session.history peer)

variable [DecidableEq A]

/-- One step of a node, which has been sent some messages. -/
def step (host : Host D P S) (peer : A) (inbound : List StandardMessage) (p : Party D A) :
    Turn → Option (Party D A)
  | .discover => if p.dial = none then some { p with dial := some .dialCheck } else none
  | .dial =>
      match p.dial with
      | none => none
      | some pc =>
          (act host p.session peer pc .go).map fun (session, pc) =>
            { p with session := session, dial := some pc }
  | .take =>
      if p.handler = .finished then
        (inbound[p.handled]?).map fun message =>
          { p with handler := .packet message, handled := p.handled + 1 }
      else none
  | .handle choice =>
      if choice.reliable then
        (act host p.session peer p.handler choice).map fun (session, pc) =>
          { p with session := session, handler := pc }
      else none
  | .setMode mode => some { p with session := { p.session with mode := mode } }
  | .load bitfield => some { p with session := { p.session with bitfield := bitfield } }

/-- The dial makes the entry pending only while it is still connecting, and the bitfield that
answers a handshake is not sent before the handshake of the dial. -/
def inTurn (peer : A) (p : Party D A) : Turn → Bool
  | .dial => p.dial != some .dialInsert || p.session.peer peer == some .connecting
  | .handle _ =>
      match p.handler with
      | .sending (.bitfield _) none false => p.dial != some .dialSend
      | _ => true
  | _ => true

end Party

namespace Nodes

/-- Both nodes at their start. -/
def start (nodes : Nodes D P S A) (mode : Bool → ActiveMode) (x : Bool) : Party D A :=
  .new (nodes.host x) (nodes.manager x) (mode x)

/-- What a node has sent to the other one. -/
def wire (nodes : Nodes D P S A) (s : Bool → Party D A) (x : Bool) : List StandardMessage :=
  (s x).wire (nodes.addr !x)

/-- Neither a message nor a task is under way. -/
def AtRest (nodes : Nodes D P S A) (s : Bool → Party D A) : Prop :=
  ∀ x, ((s x).dial = none ∨ (s x).dial = some .finished) ∧ (s x).handler = .finished ∧
    (s x).handled = (nodes.wire s !x).length

variable [DecidableEq A]

/-- One step of the two nodes. -/
def step (nodes : Nodes D P S A) (s : Bool → Party D A) (l : Bool × Turn) :
    Option (Bool → Party D A) :=
  ((s l.1).step (nodes.host l.1) (nodes.addr !l.1) (nodes.wire s !l.1) l.2).map
    (Function.update s l.1)

/-- The node whose turn it is keeps to its conditions. -/
def inTurn (nodes : Nodes D P S A) (s : Bool → Party D A) (l : Bool × Turn) : Bool :=
  (s l.1).inTurn (nodes.addr !l.1) l.2

end Nodes

/-! ## Messages -/

/-- Whether a message is a bit field. -/
def isBitfield : StandardMessage → Bool
  | .bitfield _ => true
  | _ => false

/-- The messages that a greeting is made of. -/
def isGreeting (message : StandardMessage) : Bool := message.isHandshake || isBitfield message

/-- No bitfield comes before the first handshake. -/
def HelloFirst (messages : List StandardMessage) : Prop :=
  ∀ n, (messages.take n).any isBitfield = true →
    (messages.take n).any StandardMessage.isHandshake = true

/-- No messages are in order. -/
theorem helloFirst_nil : HelloFirst [] := by
  intro n h
  rw [List.take_nil] at h
  contradiction

/-- A message comes last. -/
theorem HelloFirst.concat {messages : List StandardMessage} {message : StandardMessage}
    (h : HelloFirst messages)
    (hm : isBitfield message = true → messages.any StandardMessage.isHandshake = true) :
    HelloFirst (messages ++ [message]) := by
  intro n hn
  by_cases hlen : n ≤ messages.length
  · rw [List.take_append_of_le_length hlen] at hn ⊢
    exact h n hn
  · rw [List.take_of_length_le (by simp; omega)] at hn ⊢
    rw [List.any_append, Bool.or_eq_true] at hn ⊢
    refine Or.inl ?_
    rcases hn with hold | hnew
    · have hall := h messages.length
      rw [List.take_length] at hall
      exact hall hold
    · exact hm (by simpa using hnew)

/-- The handshake before a bitfield has been taken. -/
theorem HelloFirst.heard {messages : List StandardMessage} {n : Nat} {bits : Bytes}
    (h : HelloFirst messages) (hn : messages[n]? = some (.bitfield bits)) :
    (messages.take n).any StandardMessage.isHandshake = true := by
  have hnext : messages.take (n + 1) = messages.take n ++ [.bitfield bits] := by
    rw [List.take_add_one, hn, Option.toList_some]
  have hfirst := h (n + 1)
  rw [hnext, List.any_append, List.any_append] at hfirst
  simpa [isBitfield, StandardMessage.isHandshake] using hfirst

/-! ## On the side -/

/-- A program point of a handler that takes no part in a greeting. -/
def Pc.isAside : Pc A → Bool
  | .packet message | .sending message _ _ => !isGreeting message
  | .dialCheck | .dialConnect | .dialInsert | .dialSend | .dialRemove
  | .handshakeLookup _ _ | .handshakeOutbound _ _ | .handshakeInsert _ _ _ | .handshakeBits
  | .bitfieldOutbound _ | .bitfieldPending _ _ | .bitfieldInsert _ _ _ | .bitfieldBits
  | .announceLock _ | .announceSend _ _ | .terminate => false
  | _ => true

section Aside

variable [DecidableEq A] {host : Host D P S} {s s' : TorrentSession D A} {a : A} {pc pc' : Pc A}
  {choice : Choice}

/-- Going on with a pipeline is on the side if all its handlers are. -/
theorem withPipeline_isAside {next : Nat → Pc A}
    (h : some (withPipeline s a next) = some (s', pc'))
    (hnext : ∀ i, (next i).isAside = true) : pc'.isAside = true := by
  obtain ⟨_, ⟨i, _, rfl⟩ | rfl⟩ := withPipeline_cases (Option.some.inj h)
  · exact hnext i
  · rfl

/-- The handlers of choking and interest stay on the side. -/
theorem actChoke_isAside (h : actChoke s a pc choice = some (s', pc')) : pc'.isAside = true := by
  unfold actChoke at h
  split at h
  case h_1 | h_5 => exact withPipeline_isAside h fun _ => rfl
  case h_2 | h_3 | h_4 =>
    obtain ⟨_, _, _, rfl⟩ := update_cases h
    rfl
  case h_7 =>
    obtain ⟨p, _, he⟩ := Option.map_eq_some_iff.mp h
    cases he
    split <;> rfl
  case h_6 | h_8 | h_9 =>
    obtain ⟨p, _, he⟩ := Option.map_eq_some_iff.mp h
    cases he
    rfl
  case h_10 => contradiction

/-- The handlers of pieces stay on the side. -/
theorem actPiece_isAside (h : actPiece host s a pc choice = some (s', pc')) :
    pc'.isAside = true := by
  unfold actPiece at h
  split at h
  case h_1 =>
    split at h
    · contradiction
    · dsimp only at h
      split at h <;> cases h <;> rfl
  case h_2 =>
    split at h
    · cases h
      rfl
    · contradiction
  case h_3 => split at h <;> cases h <;> rfl
  case h_4 => split at h <;> cases h <;> rfl
  case h_5 =>
    obtain ⟨_, _, _, rfl⟩ := update_cases h
    rfl
  case h_6 | h_7 =>
    cases h
    rfl
  case h_8 =>
    split at h
    · contradiction
    · cases h
      rfl
  case h_9 =>
    rename_i complete _
    cases h
    rcases complete with _ | _ | _ <;> rfl
  case h_10 => contradiction

/-- A change of mode stays on the side. -/
theorem actMode_isAside (h : actMode s a pc choice = some (s', pc')) : pc'.isAside = true := by
  unfold actMode at h
  split at h
  case h_1 =>
    rename_i message
    cases h
    cases s.mode <;> cases message <;> rfl
  case h_2 | h_5 | h_11 => exact withPipeline_isAside h fun _ => rfl
  case h_3 =>
    split at h
    · contradiction
    · split at h
      · cases h
        rfl
      · cases h
        split <;> rfl
  case h_4 =>
    cases h
    split <;> rfl
  case h_6 | h_7 | h_9 | h_10 =>
    obtain ⟨_, _, _, rfl⟩ := update_cases h
    rfl
  case h_8 => split at h <;> cases h <;> rfl
  case h_12 =>
    obtain ⟨p, _, he⟩ := Option.map_eq_some_iff.mp h
    cases he
    split <;> rfl
  case h_13 => split at h <;> cases h <;> rfl
  case h_14 => contradiction

/-- A packet that is no greeting starts a handler on the side. -/
theorem actPacket_isAside {message : StandardMessage}
    (h : actPacket host s a message choice = some (s', pc')) (hm : isGreeting message = false) :
    pc'.isAside = true := by
  unfold actPacket at h
  split at h
  case h_1 =>
    obtain ⟨_, rfl⟩ := Prod.mk.inj (Option.some.inj h)
    by_cases hsession : (Routing.dispatch s.manager message a).2 = some host.session
    · refine (congrArg Pc.isAside (if_pos hsession)).trans ?_
      cases message <;> first | rfl | contradiction
    · exact congrArg Pc.isAside (if_neg hsession)
  case h_2 =>
    cases h
    rfl
  case h_3 => contradiction

/-- The handler of a bit field stays on the side. -/
theorem actBitfield_isAside (h : actBitfield host s a pc choice = some (s', pc'))
    (hpc : pc.isAside = true) : pc'.isAside = true := by
  unfold actBitfield at h
  split at h
  case h_5 =>
    cases h
    split <;> rfl
  case h_6 => exact withPipeline_isAside h fun _ => rfl
  case h_7 =>
    cases h
    rfl
  case h_8 =>
    obtain ⟨p, _, he⟩ := Option.map_eq_some_iff.mp h
    cases he
    split <;> rfl
  all_goals contradiction

/-- A message that is sent by itself stays on the side. -/
theorem actSend_isAside (h : actSend s a pc choice = some (s', pc'))
    (hr : choice.reliable = true) (hpc : pc.isAside = true) : pc'.isAside = true := by
  unfold actSend at h
  split at h
  case h_1 =>
    cases h
    split <;> rfl
  all_goals contradiction

/-- A handler that takes no part goes on without taking part. -/
theorem act_isAside (h : act host s a pc choice = some (s', pc')) (hr : choice.reliable = true)
    (hpc : pc.isAside = true) : pc'.isAside = true := by
  unfold act at h
  split at h
  all_goals first
    | contradiction
    | exact actPacket_isAside h (by simpa [Pc.isAside] using hpc)
    | exact actBitfield_isAside h hpc
    | exact actChoke_isAside h
    | exact actPiece_isAside h
    | exact actMode_isAside h
    | exact actSend_isAside h hr hpc

/-- The steps of a handler that takes part leave no choice. -/
theorem go_of_act (h : act host s a pc choice = some (s', pc')) (hr : choice.reliable = true)
    (hpc : pc.isAside = false)
    (hsend : ∀ announcement targets, pc ≠ .announceSend announcement targets) :
    choice = .go := by
  cases choice with
  | go => rfl
  | fail => contradiction
  | _ =>
    cases pc with
    | announceSend announcement targets => exact absurd rfl (hsend announcement targets)
    | _ => contradiction

/-- What a step on the side leaves alone: the entry of an address, the routes, and what was sent
there but for a message on the side. -/
structure Spares (s s' : TorrentSession D A) (a : A) : Prop where
  peer : s'.peer a = s.peer a
  manager : s'.manager = s.manager
  sent : sentMessages (s'.history a) = sentMessages (s.history a) ∨
    ∃ message, isGreeting message = false ∧
      sentMessages (s'.history a) = sentMessages (s.history a) ++ [message]

/-- A message on the side to any address. -/
theorem spares_send {message : StandardMessage} (b : A) (hm : isGreeting message = false) :
    Spares s (s.send b message) a := by
  refine ⟨rfl, rfl, ?_⟩
  by_cases ha : a = b
  · subst ha
    rw [TorrentSession.send_history_self]
    exact Or.inr ⟨message, hm, rfl⟩
  · rw [TorrentSession.send_history_of_ne s message ha]
    exact Or.inl rfl

/-- A handler on the side spares the greeting. -/
theorem Act.spares (h : Act host s a pc choice s' pc') (hpc : pc.isAside = true) :
    Spares s s' a := by
  cases h with
  | routed h =>
    rename_i message
    refine ⟨rfl, ?_, Or.inl rfl⟩
    cases message <;> first | rfl | contradiction
  | haveSent => exact spares_send _ rfl
  | sent => exact spares_send _ (by simpa [Pc.isAside] using hpc)
  | asked =>
    refine ⟨rfl, rfl, Or.inl ?_⟩
    rw [TorrentSession.record_history_self]
    rfl
  | removed h => rcases h with rfl | rfl <;> contradiction
  | connecting | dialled | dialSent | greeted | opened | announceLocked | announced
  | announceUnlocked => contradiction
  | _ => exact ⟨rfl, rfl, Or.inl rfl⟩

/-! ## What was sent stays sent -/

/-- What is recorded adds to what was sent. -/
theorem sentMessages_record (s : TorrentSession D A) (a b : A) (e : Event) :
    ∃ messages,
      sentMessages ((s.record a e).history b) = sentMessages (s.history b) ++ messages := by
  by_cases hb : b = a
  · subst hb
    rw [TorrentSession.record_history_self]
    cases e with
    | sent message => exact ⟨[message], rfl⟩
    | _ => exact ⟨[], (List.append_nil _).symm⟩
  · rw [TorrentSession.record_history_of_ne s e hb]
    exact ⟨[], (List.append_nil _).symm⟩

/-- Nothing that was sent is taken back. -/
theorem Act.sentMessages {host : Host D P S} {s s' : TorrentSession D A} {a : A} {pc pc' : Pc A}
    {choice : Choice} (h : Act host s a pc choice s' pc') (b : A) :
    ∃ messages, sentMessages (s'.history b) = sentMessages (s.history b) ++ messages := by
  cases h with
  | dialSent | sent | haveSent | announced | asked => exact sentMessages_record ..
  | removed => exact sentMessages_record s a b .gone
  | greeted => exact sentMessages_record (s.insertPending a _ _) a b _
  | opened => exact sentMessages_record (s.setPeer a _) a b .opened
  | _ => exact ⟨[], (List.append_nil _).symm⟩

/-- A node only adds to what it has sent. -/
theorem Party.step_wire {host : Host D P S} {peer : A} {inbound : List StandardMessage}
    {p p' : Party D A} {turn : Turn} (h : p.step host peer inbound turn = some p') :
    ∃ messages, p'.wire peer = p.wire peer ++ messages := by
  have hsame : p'.session.history = p.session.history →
      ∃ messages, p'.wire peer = p.wire peer ++ messages := by
    intro hhistory
    exact ⟨[], by rw [Party.wire, hhistory, List.append_nil, Party.wire]⟩
  cases turn with
  | discover =>
    simp only [Party.step] at h
    split at h
    · cases h
      exact hsame rfl
    · contradiction
  | dial =>
    simp only [Party.step] at h
    split at h
    · contradiction
    · obtain ⟨r, hact, rfl⟩ := Option.map_eq_some_iff.mp h
      exact (act_cases hact).sentMessages peer
  | take =>
    simp only [Party.step] at h
    split at h
    · obtain ⟨message, _, rfl⟩ := Option.map_eq_some_iff.mp h
      exact hsame rfl
    · contradiction
  | handle choice =>
    simp only [Party.step] at h
    split at h
    · obtain ⟨r, hact, rfl⟩ := Option.map_eq_some_iff.mp h
      exact (act_cases hact).sentMessages peer
    · contradiction
  | setMode mode | load bitfield =>
    cases h
    exact hsame rfl

end Aside

end Bqti.Session.Peers
