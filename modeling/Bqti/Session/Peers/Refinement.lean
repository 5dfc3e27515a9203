import Bqti.Session.Peers.Pair
import Bqti.Session.Peers.Greeting

/-!
# A node in the course of a greeting

What a node shows to the other one: its entry for it, how far its dial and its handler are, and
what it has sent and taken. Every step of a node that keeps to its conditions is a step of a
greeting, or changes nothing that shows.
-/

namespace Bqti.Session.Peers

open Bqti.Core Bqti.Dht Bqti.Torrent
open Bqti.Session.Routing (StandardMessage SessionManager)
open Bqti.Session.Peers.Greeting

variable {D P S A : Type*}

/-! ## What a node shows -/

/-- The program point of a dial. -/
def Greeting.Dial.pc : Dial → Option (Pc A)
  | .idle => none
  | .check => some .dialCheck
  | .connect => some .dialConnect
  | .insert => some .dialInsert
  | .send => some .dialSend
  | .done => some .finished

section Shows

variable [DecidableEq A]

/-- The entry of the other node, which has the given id. -/
def Greeting.Entry.Holds (host : Host D P S) (id : Bytes) (peer : A) (s : TorrentSession D A) :
    Entry → Prop
  | .absent => s.peer peer = none
  | .connecting => s.peer peer = some .connecting
  | .dialled => s.peer peer = some (.pending host.id true)
  | .known outbound => s.peer peer = some (.pending id outbound)
  | .active => ∃ i p, s.peer peer = some (.active i) ∧ s.pipelines[i]? = some p ∧
      p.peer = ⟨Key.new host.crypto id, peer⟩

/-- Where a handler stands. What it has read of the entry is still true. -/
def Greeting.Stage.Holds (host : Host D P S) (id : Bytes) (entry : Entry) (pc : Pc A) :
    Stage → Prop
  | .aside => pc.isAside = true
  | .greet =>
      pc = .packet (.handshake host.infoHash.asRef id) ∨
        pc = .handshakeLookup host.infoHash.asRef id ∨
        (pc = .handshakeOutbound host.infoHash id ∧ entry ≠ .active)
  | .record outbound => pc = .handshakeInsert host.infoHash id outbound
  | .hello => pc = .sending (.handshake host.infoHash.asRef host.id) none false
  | .bits => pc = .handshakeBits ∨ ∃ bits, pc = .sending (.bitfield bits) none false
  | .opening => ∃ bits, pc = .packet (.bitfield bits) ∨ pc = .bitfieldOutbound bits ∨
      (∃ b, pc = .bitfieldPending bits b ∧ (entry = .known b ∨ entry = .active)) ∨
      ∃ b, pc = .bitfieldInsert bits b id ∧ entry = .known b
  | .reply => pc = .bitfieldBits ∨ ∃ bits, pc = .sending (.bitfield bits) none true

/-- What a node has been sent: handshakes of the other node, the first of them before any
bitfield. -/
structure Receives (host : Host D P S) (id : Bytes) (inbound : List StandardMessage)
    (hello bits : Bool) : Prop where
  hello : hello = inbound.any StandardMessage.isHandshake
  bits : bits = inbound.any isBitfield
  handshake : ∀ infoHash peerId, .handshake infoHash peerId ∈ inbound →
    infoHash = host.infoHash.asRef ∧ peerId = id
  order : HelloFirst inbound

section Receives

variable {host : Host D P S} {id : Bytes} {inbound : List StandardMessage} {hello bits : Bool}

/-- One more message. -/
theorem Receives.concat (h : Receives host id inbound hello bits) (message : StandardMessage)
    (hm : ∀ infoHash peerId, message = .handshake infoHash peerId →
      infoHash = host.infoHash.asRef ∧ peerId = id)
    (hfirst : isBitfield message = true → hello = true) :
    Receives host id (inbound ++ [message]) (hello || message.isHandshake)
      (bits || isBitfield message) where
  hello := by rw [h.hello, List.any_append, List.any_cons, List.any_nil, Bool.or_false]
  bits := by rw [h.bits, List.any_append, List.any_cons, List.any_nil, Bool.or_false]
  handshake := by
    intro infoHash peerId hmem
    rcases List.mem_append.mp hmem with hold | hnew
    · exact h.handshake infoHash peerId hold
    · exact hm infoHash peerId (List.mem_singleton.mp hnew).symm
  order := h.order.concat fun hmessage => by rw [← h.hello, hfirst hmessage]

/-- A handshake. -/
theorem Receives.concat_handshake (h : Receives host id inbound hello bits) :
    Receives host id (inbound ++ [.handshake host.infoHash.asRef id]) true bits := by
  have hnext := h.concat (.handshake host.infoHash.asRef id)
    (by rintro _ _ ⟨rfl, rfl⟩; exact ⟨rfl, rfl⟩) nofun
  simpa [isBitfield, StandardMessage.isHandshake] using hnext

/-- A bitfield, after a handshake. -/
theorem Receives.concat_bitfield (h : Receives host id inbound hello bits) (hhello : hello = true)
    (field : Bytes) : Receives host id (inbound ++ [.bitfield field]) hello true := by
  have hnext := h.concat (.bitfield field) nofun fun _ => hhello
  simpa [isBitfield, StandardMessage.isHandshake] using hnext

/-- A message on the side. -/
theorem Receives.concat_aside (h : Receives host id inbound hello bits)
    {message : StandardMessage} (hm : isGreeting message = false) :
    Receives host id (inbound ++ [message]) hello bits := by
  simp only [isGreeting, Bool.or_eq_false_iff] at hm
  have hnext := h.concat message
    (by rintro _ _ rfl; exact absurd hm.1 nofun) fun hb => absurd hb (by simp [hm.2])
  simpa [hm] using hnext

end Receives

/-- A node shows a view to the other one, which has the given id. -/
structure Shows (host : Host D P S) (id : Bytes) (peer : A) (inbound : List StandardMessage)
    (p : Party D A) (v : View) : Prop where
  entry : v.entry.Holds host id peer p.session
  dial : p.dial = v.dial.pc
  stage : v.stage.Holds host id v.entry p.handler
  heard : v.heard = (inbound.take p.handled).any StandardMessage.isHandshake
  seen : v.seen = (inbound.take p.handled).any isBitfield
  taken : p.handled ≤ inbound.length
  sends : Receives host host.id (p.wire peer) v.hello v.bits
  known : p.session.manager.byHash host.infoHash = some host.session
  routed : v.heard = true → p.session.manager.byPeer peer = some host.session ∨
    p.handler = .packet (.handshake host.infoHash.asRef id)

variable {host : Host D P S} {id : Bytes} {peer : A} {inbound : List StandardMessage}
  {s s' : TorrentSession D A} {p p' : Party D A} {v other : View} {entry : Entry}

/-- An absent entry is shown as such. -/
theorem Greeting.Entry.Holds.eq_absent (h : entry.Holds host id peer s) (hs : s.peer peer = none) :
    entry = .absent := by
  cases entry with
  | absent => rfl
  | active =>
    obtain ⟨i, _, hactive, _⟩ := h
    cases hactive.symm.trans hs
  | _ => cases h.symm.trans hs

/-- So is a connecting one. -/
theorem Greeting.Entry.Holds.eq_connecting (h : entry.Holds host id peer s)
    (hs : s.peer peer = some .connecting) : entry = .connecting := by
  cases entry with
  | connecting => rfl
  | active =>
    obtain ⟨i, _, hactive, _⟩ := h
    cases hactive.symm.trans hs
  | _ => cases h.symm.trans hs

/-- Whether it is pending and was dialled. -/
theorem Greeting.Entry.Holds.isPendingOutbound (h : v.entry.Holds host id peer s) :
    s.isPendingOutbound peer = v.outbound := by
  unfold TorrentSession.isPendingOutbound View.outbound
  cases hentry : v.entry with
  | active =>
    rw [hentry] at h
    obtain ⟨i, _, hactive, _⟩ := h
    rw [hactive]
    rfl
  | known b =>
    rw [hentry] at h
    rw [h]
    cases b <;> rfl
  | _ =>
    rw [hentry] at h
    rw [h]
    rfl

/-- Whether it is active. -/
theorem Greeting.Entry.Holds.getPipeline (h : entry.Holds host id peer s) :
    s.getPipeline peer = none ∧ entry ≠ .active ∨
      (∃ i, s.getPipeline peer = some i) ∧ entry = .active := by
  unfold TorrentSession.getPipeline
  cases entry with
  | active =>
    obtain ⟨i, _, hactive, _⟩ := h
    rw [hactive]
    exact Or.inr ⟨⟨i, rfl⟩, rfl⟩
  | _ =>
    rw [h]
    exact Or.inl ⟨rfl, nofun⟩

/-- The id that a pending entry holds. -/
theorem Greeting.Entry.Holds.getPendingPeer (h : entry.Holds host id peer s) {b : Bool}
    (hentry : entry = .known b) : s.getPendingPeer peer = some id := by
  subst hentry
  rw [TorrentSession.getPendingPeer, h]

/-- An active entry is not pending. -/
theorem Greeting.Entry.Holds.getPendingPeer_active (h : entry.Holds host id peer s)
    (hentry : entry = .active) : s.getPendingPeer peer = none := by
  subst hentry
  obtain ⟨i, _, hactive, _⟩ := h
  rw [TorrentSession.getPendingPeer, hactive]

/-- An entry is shown the same after a step that leaves it and keeps the pipelines. -/
theorem Greeting.Entry.Holds.congr (h : entry.Holds host id peer s)
    (hpeer : s'.peer peer = s.peer peer)
    (hpipes : ∀ (i : Nat) (p : Pipeline D A), s.pipelines[i]? = some p →
      ∃ p', s'.pipelines[i]? = some p' ∧ p'.peer = p.peer) :
    entry.Holds host id peer s' := by
  cases entry with
  | active =>
    obtain ⟨i, p, hactive, hi, hnode⟩ := h
    obtain ⟨p', hi', hnode'⟩ := hpipes i p hi
    exact ⟨i, p', hpeer.trans hactive, hi', hnode'.trans hnode⟩
  | _ => exact hpeer.trans h

omit [DecidableEq A] in
/-- A dial does not touch an entry that a handler relies on. -/
theorem Greeting.Stage.Holds.dial {stage : Stage} {pc : Pc A} {entry' : Entry}
    (h : stage.Holds host id entry pc) (hentry : entry = .absent ∨ entry = .connecting)
    (hentry' : entry' ≠ .active) : stage.Holds host id entry' pc := by
  cases stage with
  | greet =>
    rcases h with h | h | h
    · exact Or.inl h
    · exact Or.inr (Or.inl h)
    · exact Or.inr (Or.inr ⟨h.1, hentry'⟩)
  | opening =>
    obtain ⟨bits, h⟩ := h
    refine ⟨bits, ?_⟩
    rcases h with h | h | ⟨b, _, h⟩ | ⟨b, _, h⟩
    · exact Or.inl h
    · exact Or.inr (Or.inl h)
    · rcases hentry with rfl | rfl <;> simp at h
    · rcases hentry with rfl | rfl <;> simp at h
  | _ => exact h

/-- More may be sent to a node. -/
theorem Shows.inbound_append (h : Shows host id peer inbound p v)
    (messages : List StandardMessage) : Shows host id peer (inbound ++ messages) p v := by
  have htake : (inbound ++ messages).take p.handled = inbound.take p.handled :=
    List.take_append_of_le_length h.taken
  refine { h with heard := ?_, seen := ?_, taken := ?_ }
  · rw [htake, h.heard]
  · rw [htake, h.seen]
  · rw [List.length_append]
    exact Nat.le_add_right_of_le h.taken

/-- Messages of the other node find the session once its handshake has been dispatched. -/
theorem Shows.route (h : Shows host id peer inbound p v)
    (hpc : p.handler ≠ .packet (.handshake host.infoHash.asRef id)) (hv : v.heard = true) :
    p.session.manager.byPeer peer = some host.session := (h.routed hv).resolve_right hpc

/-! ## Steps of a node -/

/-- A step of a dial. It never finds its entry replaced. -/
theorem Shows.dial_step (h : Shows host id peer inbound p v)
    (hstep : p.step host peer inbound .dial = some p')
    (hturn : p.inTurn peer .dial = true) :
    ∃ v', Step other v v' ∧ Shows host id peer inbound p' v' := by
  have hdial := h.dial
  simp only [Party.step] at hstep
  cases hd : v.dial with
  | idle =>
    rw [hdial, hd] at hstep
    contradiction
  | check =>
    rw [hdial, hd] at hstep
    obtain ⟨⟨session, pc⟩, hact, rfl⟩ := Option.map_eq_some_iff.mp hstep
    simp only [act, actDial] at hact
    split at hact
    · contradiction
    · split at hact
      · cases hact
        exact ⟨{ v with dial := .done }, .skip hd, { h with dial := rfl }⟩
      · rename_i habsent
        cases hact
        have hentry := h.entry.eq_absent habsent
        exact ⟨_, .enter hd hentry, { h with
          entry := TorrentSession.setPeer_peer_self ..
          dial := rfl
          stage := h.stage.dial (Or.inl hentry) (by simp) }⟩
  | connect =>
    rw [hdial, hd] at hstep
    cases hstep
    exact ⟨_, .connect hd, { h with dial := rfl }⟩
  | insert =>
    simp only [Party.inTurn, hdial, hd, Dial.pc, bne_self_eq_false, Bool.false_or,
      beq_iff_eq] at hturn
    rw [hdial, hd] at hstep
    obtain ⟨⟨session, pc⟩, hact, rfl⟩ := Option.map_eq_some_iff.mp hstep
    simp only [act, actDial] at hact
    split at hact
    · contradiction
    · cases hact
      have hentry := h.entry.eq_connecting hturn
      exact ⟨_, .insert hd hentry, { h with
        entry := TorrentSession.setPeer_peer_self ..
        dial := rfl
        stage := h.stage.dial (Or.inr hentry) (by simp) }⟩
  | send =>
    rw [hdial, hd] at hstep
    cases hstep
    refine ⟨_, .call hd, { h with dial := rfl, sends := ?_ }⟩
    rw [Party.wire, TorrentSession.send_history_self]
    exact h.sends.concat_handshake
  | done =>
    rw [hdial, hd] at hstep
    contradiction

omit [DecidableEq A] in
/-- A handler that is shown to take part does, and is no broadcast. -/
theorem Greeting.Stage.Holds.takesPart {stage : Stage} {pc : Pc A}
    (h : stage.Holds host id entry pc) (hstage : stage ≠ .aside) :
    pc.isAside = false ∧ ∀ announcement targets, pc ≠ .announceSend announcement targets := by
  cases stage with
  | aside => contradiction
  | greet => rcases h with rfl | rfl | ⟨rfl, _⟩ <;> exact ⟨rfl, nofun⟩
  | bits | reply => rcases h with rfl | ⟨bits, rfl⟩ <;> exact ⟨rfl, nofun⟩
  | opening =>
    obtain ⟨bits, rfl | rfl | ⟨b, rfl, _⟩ | ⟨b, rfl, _⟩⟩ := h <;> exact ⟨rfl, nofun⟩
  | _ =>
    cases h
    exact ⟨rfl, nofun⟩

/-- The next message is taken. -/
theorem Shows.take_step (h : Shows host id peer inbound p v)
    (hin : Receives host id inbound other.hello other.bits)
    (hstep : p.step host peer inbound .take = some p') :
    ∃ v', Step other v v' ∧ Shows host id peer inbound p' v' := by
  simp only [Party.step] at hstep
  split at hstep
  · rename_i hfinished
    obtain ⟨message, hmessage, rfl⟩ := Option.map_eq_some_iff.mp hstep
    have hstage : v.stage = .aside := by
      by_contra hne
      have hpart := (h.stage.takesPart hne).1
      rw [hfinished] at hpart
      contradiction
    have hlt : p.handled < inbound.length := (List.getElem?_eq_some_iff.mp hmessage).1
    have hmem : message ∈ inbound := List.mem_of_getElem? hmessage
    have hnext : inbound.take (p.handled + 1) = inbound.take p.handled ++ [message] := by
      rw [List.take_add_one, hmessage, Option.toList_some]
    have hheard : (inbound.take (p.handled + 1)).any StandardMessage.isHandshake =
        (v.heard || message.isHandshake) := by
      rw [hnext, List.any_append, List.any_cons, List.any_nil, Bool.or_false, h.heard]
    have hseen : (inbound.take (p.handled + 1)).any isBitfield =
        (v.seen || isBitfield message) := by
      rw [hnext, List.any_append, List.any_cons, List.any_nil, Bool.or_false, h.seen]
    have hrouted : v.heard = true → p.session.manager.byPeer peer = some host.session :=
      h.route (by simp [hfinished])
    by_cases hm : isGreeting message = true
    · cases message with
      | handshake infoHash peerId =>
        obtain ⟨rfl, rfl⟩ := hin.handshake infoHash peerId hmem
        have hother : other.hello = true := by
          rw [hin.hello, List.any_eq_true]
          exact ⟨_, hmem, rfl⟩
        exact ⟨_, .hear hstage hother, { h with
          stage := Or.inl rfl
          heard := by simp [hheard, StandardMessage.isHandshake]
          seen := by simp [hseen, isBitfield]
          taken := hlt
          routed := fun _ => Or.inr rfl }⟩
      | bitfield bits =>
        have hother : other.bits = true := by
          rw [hin.bits, List.any_eq_true]
          exact ⟨_, hmem, rfl⟩
        have hfirst : v.heard = true := h.heard.trans (hin.order.heard hmessage)
        exact ⟨_, .see hstage hfirst hother, { h with
          stage := ⟨bits, Or.inl rfl⟩
          heard := by simp [hheard, StandardMessage.isHandshake]
          seen := by simp [hseen, isBitfield]
          taken := hlt
          routed := fun hv => Or.inl (hrouted hv) }⟩
      | _ => contradiction
    · have hm' := hm
      simp only [isGreeting, Bool.or_eq_true, not_or, Bool.not_eq_true] at hm'
      refine ⟨v, .stay v, { h with
        stage := ?_
        heard := by simp [hheard, hm'.1]
        seen := by simp [hseen, hm'.2]
        taken := hlt
        routed := fun hv => Or.inl (hrouted hv) }⟩
      rw [hstage]
      simpa [Stage.Holds, Pc.isAside] using hm
  · contradiction

/-- A handler that takes no part in the greeting. -/
theorem Shows.aside_step (h : Shows host id peer inbound p v) {choice : Choice}
    {session : TorrentSession D A} {pc : Pc A} (hstage : v.stage = .aside)
    (hr : choice.reliable = true)
    (hact : act host p.session peer p.handler choice = some (session, pc)) :
    Shows host id peer inbound { p with session := session, handler := pc } v := by
  have haside : p.handler.isAside = true := by
    have hs := h.stage
    rwa [hstage] at hs
  have hspares := (act_cases hact).spares haside
  have hentry : v.entry.Holds host id peer session :=
    h.entry.congr hspares.peer fun i p hi => (act_cases hact).pipeline_next hi
  refine { h with entry := hentry, stage := ?_, sends := ?_, known := ?_, routed := ?_ }
  · rw [hstage]
    exact act_isAside hact hr haside
  · rcases hspares.sent with hsame | ⟨message, hm, hmore⟩
    · rw [Party.wire, hsame]
      exact h.sends
    · rw [Party.wire, hmore]
      exact h.sends.concat_aside hm
  · rw [hspares.manager]
    exact h.known
  · intro hv
    rw [hspares.manager]
    refine Or.inl (h.route ?_ hv)
    intro hpc
    rw [hpc] at haside
    contradiction

/-- A handshake is being handled: it is ignored by an active node, and otherwise the entry is
read. -/
theorem Shows.greet_step (h : Shows host id peer inbound p v) {session : TorrentSession D A}
    {pc : Pc A} (hstage : v.stage = .greet)
    (hact : act host p.session peer p.handler .go = some (session, pc)) :
    ∃ v', Step other v v' ∧
      Shows host id peer inbound { p with session := session, handler := pc } v' := by
  have hs := h.stage
  rw [hstage] at hs
  rcases hs with hpc | hpc | ⟨hpc, hentry⟩
  · rw [hpc] at hact
    have hdispatch : Routing.dispatch p.session.manager (.handshake host.infoHash.asRef id) peer =
        ({ p.session.manager with
            byPeer := Function.update p.session.manager.byPeer peer (some host.session) },
          some host.session) := by
      simp [Routing.dispatch, InfoHash.tryFrom_asRef, h.known]
    simp only [act, actPacket, hdispatch, if_true] at hact
    cases hact
    refine ⟨v, .stay v, { h with stage := ?_, routed := fun _ => Or.inl (by simp) }⟩
    rw [hstage]
    exact Or.inr (Or.inl rfl)
  · have hrouted : v.heard = true → p.session.manager.byPeer peer = some host.session :=
      h.route (by simp [hpc])
    rw [hpc] at hact
    rcases h.entry.getPipeline with ⟨hpipe, hentry⟩ | ⟨⟨i, hpipe⟩, hentry⟩
    · simp only [act, actHandshake, hpipe, InfoHash.tryFrom_asRef, ne_eq, not_true_eq_false,
        if_false] at hact
      cases hact
      refine ⟨v, .stay v, { h with stage := ?_, routed := fun hv => Or.inl (hrouted hv) }⟩
      rw [hstage]
      exact Or.inr (Or.inr ⟨rfl, hentry⟩)
    · simp only [act, actHandshake, hpipe] at hact
      cases hact
      exact ⟨_, .ignore (Or.inl hstage) hentry,
        { h with stage := rfl, routed := fun hv => Or.inl (hrouted hv) }⟩
  · have hrouted : v.heard = true → p.session.manager.byPeer peer = some host.session :=
      h.route (by simp [hpc])
    rw [hpc] at hact
    cases hact
    refine ⟨_, .read hstage hentry,
      { h with stage := ?_, routed := fun hv => Or.inl (hrouted hv) }⟩
    rw [h.entry.isPendingOutbound]
    rfl

/-- The handshake is recorded. -/
theorem Shows.record_step (h : Shows host id peer inbound p v) {session : TorrentSession D A}
    {pc : Pc A} {b : Bool} (hstage : v.stage = .record b)
    (hact : act host p.session peer p.handler .go = some (session, pc)) :
    ∃ v', Step other v v' ∧
      Shows host id peer inbound { p with session := session, handler := pc } v' := by
  have hs := h.stage
  rw [hstage] at hs
  have hrouted : v.heard = true → p.session.manager.byPeer peer = some host.session :=
    h.route (by rw [hs]; nofun)
  rw [hs] at hact
  simp only [act, actHandshake] at hact
  split at hact
  · contradiction
  · cases hact
    refine ⟨_, .record hstage, { h with
      entry := TorrentSession.setPeer_peer_self ..
      stage := ?_
      sends := ?_
      routed := fun hv => Or.inl (hrouted hv) }⟩
    · cases b with
      | true => exact Or.inl rfl
      | false => rfl
    · rw [Party.wire, TorrentSession.record_history_self]
      exact h.sends

/-- The handshake is answered with a handshake. -/
theorem Shows.hello_step (h : Shows host id peer inbound p v) {session : TorrentSession D A}
    {pc : Pc A} (hstage : v.stage = .hello)
    (hact : act host p.session peer p.handler .go = some (session, pc)) :
    ∃ v', Step other v v' ∧
      Shows host id peer inbound { p with session := session, handler := pc } v' := by
  have hs := h.stage
  rw [hstage] at hs
  have hrouted : v.heard = true → p.session.manager.byPeer peer = some host.session :=
    h.route (by rw [hs]; nofun)
  rw [hs] at hact
  cases hact
  refine ⟨_, .hello hstage, { h with
    stage := rfl
    sends := ?_
    routed := fun hv => Or.inl (hrouted hv) }⟩
  rw [Party.wire, TorrentSession.send_history_self]
  exact h.sends.concat_handshake

/-- The handshake is answered with a bitfield. The handshake of the dial was sent before. -/
theorem Shows.bits_step (h : Shows host id peer inbound p v) (hv : Steady v)
    {session : TorrentSession D A} {pc : Pc A} {choice : Choice} (hstage : v.stage = .bits)
    (hact : act host p.session peer p.handler .go = some (session, pc))
    (hturn : p.inTurn peer (.handle choice) = true) :
    ∃ v', Step other v v' ∧
      Shows host id peer inbound { p with session := session, handler := pc } v' := by
  have hs := h.stage
  rw [hstage] at hs
  have hrouted : v.heard = true → p.session.manager.byPeer peer = some host.session :=
    h.route (by rcases hs with hpc | ⟨bits, hpc⟩ <;> rw [hpc] <;> nofun)
  rcases hs with hpc | ⟨bits, hpc⟩
  · rw [hpc] at hact
    cases hact
    refine ⟨v, .stay v, { h with stage := ?_, routed := fun hv => Or.inl (hrouted hv) }⟩
    rw [hstage]
    exact Or.inr ⟨_, rfl⟩
  · have hdial : v.dial ≠ .send := by
      intro hd
      simp [Party.inTurn, hpc, h.dial, hd, Dial.pc] at hturn
    have hhello : v.hello = true := by
      have hknown := hv.answering hstage
      exact (hv.dialled (by simp [View.outbound, hknown])).resolve_right hdial
    rw [hpc] at hact
    cases hact
    refine ⟨_, .bits hstage hdial, { h with
      stage := rfl
      sends := ?_
      routed := fun hv => Or.inl (hrouted hv) }⟩
    rw [Party.wire, TorrentSession.send_history_self]
    exact h.sends.concat_bitfield hhello bits

/-- A bitfield is being handled: the entry is pending with the id of the other node, or active
already. -/
theorem Shows.opening_step (h : Shows host id peer inbound p v) (hv : Steady v)
    {session : TorrentSession D A} {pc : Pc A} (hstage : v.stage = .opening)
    (hact : act host p.session peer p.handler .go = some (session, pc)) :
    ∃ v', Step other v v' ∧
      Shows host id peer inbound { p with session := session, handler := pc } v' := by
  have hs := h.stage
  rw [hstage] at hs
  obtain ⟨bits, hs⟩ := hs
  have hgreeted : v.greeted = true := hv.opening hstage
  have hrouted : p.session.manager.byPeer peer = some host.session := by
    refine h.route ?_ (hv.hears (Or.inl hgreeted))
    rcases hs with hpc | hpc | ⟨b, hpc, _⟩ | ⟨b, hpc, _⟩ <;> rw [hpc] <;> nofun
  rcases hs with hpc | hpc | ⟨b, hpc, hentry⟩ | ⟨b, hpc, hentry⟩
  · rw [hpc] at hact
    simp only [act, actPacket, Routing.dispatch, hrouted, if_true] at hact
    cases hact
    refine ⟨v, .stay v, { h with stage := ?_, routed := fun _ => Or.inl hrouted }⟩
    rw [hstage]
    exact ⟨bits, Or.inr (Or.inl rfl)⟩
  · rw [hpc] at hact
    cases hact
    refine ⟨v, .stay v, { h with stage := ?_, routed := fun _ => Or.inl hrouted }⟩
    rw [hstage]
    refine ⟨bits, Or.inr (Or.inr (Or.inl ⟨v.outbound, ?_, ?_⟩))⟩
    · rw [h.entry.isPendingOutbound]
    · exact entry_of_greeted hgreeted
  · rw [hpc] at hact
    rcases hentry with hentry | hentry
    · simp only [act, actBitfield, h.entry.getPendingPeer hentry] at hact
      cases hact
      refine ⟨v, .stay v, { h with stage := ?_, routed := fun _ => Or.inl hrouted }⟩
      rw [hstage]
      exact ⟨bits, Or.inr (Or.inr (Or.inr ⟨b, rfl, hentry⟩))⟩
    · simp only [act, actBitfield, h.entry.getPendingPeer_active hentry] at hact
      cases hact
      exact ⟨_, .ignore (Or.inr hstage) hentry,
        { h with stage := rfl, routed := fun _ => Or.inl hrouted }⟩
  · rw [hpc] at hact
    simp only [act, actBitfield] at hact
    split at hact
    · contradiction
    · cases hact
      have hpipeline : Entry.active.Holds host id peer
          (p.session.insertPipeline host peer id bits) :=
        ⟨p.session.pipelines.length,
          .new ⟨Key.new host.crypto id, peer⟩ (.fromWire bits host.pieceCount),
          TorrentSession.insertPipeline_peer_self .., List.getElem?_concat_length, rfl⟩
      refine ⟨_, .opened hstage hentry, { h with
        entry := hpipeline
        stage := ?_
        sends := ?_
        routed := fun _ => Or.inl hrouted }⟩
      · cases b with
        | true => rfl
        | false => exact Or.inl rfl
      · rw [Party.wire, TorrentSession.insertPipeline_history_self]
        exact h.sends

/-- The bitfield is answered with a bitfield. -/
theorem Shows.reply_step (h : Shows host id peer inbound p v) (hv : Steady v)
    {session : TorrentSession D A} {pc : Pc A} (hstage : v.stage = .reply)
    (hact : act host p.session peer p.handler .go = some (session, pc)) :
    ∃ v', Step other v v' ∧
      Shows host id peer inbound { p with session := session, handler := pc } v' := by
  have hs := h.stage
  rw [hstage] at hs
  have hrouted : v.heard = true → p.session.manager.byPeer peer = some host.session :=
    h.route (by rcases hs with hpc | ⟨bits, hpc⟩ <;> rw [hpc] <;> nofun)
  rcases hs with hpc | ⟨bits, hpc⟩
  · rw [hpc] at hact
    cases hact
    refine ⟨v, .stay v, { h with stage := ?_, routed := fun hv => Or.inl (hrouted hv) }⟩
    rw [hstage]
    exact Or.inr ⟨_, rfl⟩
  · rw [hpc] at hact
    cases hact
    refine ⟨_, .reply hstage, { h with
      stage := rfl
      sends := ?_
      routed := fun hv => Or.inl (hrouted hv) }⟩
    rw [Party.wire, TorrentSession.send_history_self]
    exact h.sends.concat_bitfield (hv.replying hstage).2 bits

/-- A step of a node goes along the course of a greeting. -/
theorem Shows.step (h : Shows host id peer inbound p v) (hv : Steady v)
    (hin : Receives host id inbound other.hello other.bits) {turn : Turn}
    (hstep : p.step host peer inbound turn = some p') (hturn : p.inTurn peer turn = true) :
    ∃ v', Step other v v' ∧ Shows host id peer inbound p' v' := by
  cases turn with
  | discover =>
    simp only [Party.step] at hstep
    split at hstep
    · rename_i hnone
      cases hstep
      have hidle : v.dial = .idle := by
        have hdial := h.dial
        cases hd : v.dial with
        | idle => rfl
        | _ =>
          rw [hnone, hd] at hdial
          contradiction
      exact ⟨_, .start hidle, { h with dial := rfl }⟩
    · contradiction
  | dial => exact h.dial_step hstep hturn
  | take => exact h.take_step hin hstep
  | setMode mode =>
    cases hstep
    exact ⟨v, .stay v, { h with entry := h.entry.congr rfl fun i p hi => ⟨p, hi, rfl⟩ }⟩
  | load bitfield =>
    cases hstep
    exact ⟨v, .stay v, { h with entry := h.entry.congr rfl fun i p hi => ⟨p, hi, rfl⟩ }⟩
  | handle choice =>
    simp only [Party.step] at hstep
    split at hstep
    · rename_i hr
      obtain ⟨⟨session, pc⟩, hact, rfl⟩ := Option.map_eq_some_iff.mp hstep
      by_cases hstage : v.stage = .aside
      · exact ⟨v, .stay v, h.aside_step hstage hr hact⟩
      · obtain ⟨hpart, hsend⟩ := h.stage.takesPart hstage
        cases go_of_act hact hr hpart hsend
        cases hst : v.stage with
        | aside => contradiction
        | greet => exact h.greet_step hst hact
        | record b => exact h.record_step hst hact
        | hello => exact h.hello_step hst hact
        | bits => exact h.bits_step hv hst hact hturn
        | opening => exact h.opening_step hv hst hact
        | reply => exact h.reply_step hv hst hact
    · contradiction

end Shows

end Bqti.Session.Peers
