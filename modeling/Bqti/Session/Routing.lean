import Mathlib.Logic.Function.Basic
import Bqti.Core.Run
import Bqti.Torrent.Metainfo

/-!
# Routing of peer messages to sessions

A node runs one session for each torrent. Only a handshake names its torrent; every other
message is handed to the session that the table of peers has for the address it came from,
and each handshake for a known torrent overwrites that entry. The model lets every message
carry the torrent on whose behalf it was sent, which the wire does not, and keeps the
history of the table.
-/

namespace Bqti.Session.Routing

open Bqti.Core Bqti.Torrent

/-- The peer messages. -/
inductive StandardMessage
  | handshake (infoHash peerId : Bytes)
  | bitfield (bits : Bytes)
  | interested
  | notInterested
  | choke
  | unchoke
  | request (index : UInt32)
  | piece (index : UInt32) (data : Bytes)
  | have_ (index : UInt32)
  deriving DecidableEq, Repr

/-- Handshakes are the only messages that name a torrent. -/
def StandardMessage.isHandshake : StandardMessage → Bool
  | .handshake _ _ => true
  | _ => false

/-- The manager: all sessions that were ever created, numbered, and its two tables. -/
structure SessionManager (A : Type*) where
  sessions : List InfoHash
  byHash : InfoHash → Option Nat
  byPeer : A → Option Nat

section Manager

variable {A : Type*} [DecidableEq A]

/-- Choose the session for a message; `none` means that the message is dropped. -/
def dispatch (m : SessionManager A) (message : StandardMessage) (source : A) :
    SessionManager A × Option Nat :=
  match message with
  | .handshake infoHash _ =>
      match InfoHash.tryFrom infoHash with
      | .error _ => (m, none)
      | .ok h =>
          match m.byHash h with
          | none => (m, none)
          | some k => ({ m with byPeer := Function.update m.byPeer source (some k) }, some k)
  | _ => (m, m.byPeer source)

/-- The queue worker registers a new session, replacing an older one of the same torrent. -/
def insert (m : SessionManager A) (h : InfoHash) : SessionManager A :=
  { m with
    sessions := m.sessions ++ [h]
    byHash := Function.update m.byHash h (some m.sessions.length) }

/-- Remove the session of a torrent from both tables. -/
def remove (m : SessionManager A) (h : InfoHash) : SessionManager A :=
  match m.byHash h with
  | none => m
  | some k =>
      { m with
        byHash := Function.update m.byHash h none
        byPeer := fun a => (m.byPeer a).filter (· ≠ k) }

end Manager

/-- A message on its way, with the torrent on whose behalf it was sent. -/
structure Packet (A : Type*) where
  source : A
  onBehalf : InfoHash
  message : StandardMessage

/-- A dispatched message with the session it was handed to. -/
structure Handed (A : Type*) where
  packet : Packet A
  session : Option Nat

/-- What has happened to the table of peers, newest first. -/
inductive Event (A : Type*)
  | bound (source : A) (session : Nat)
  | removed (session : Nat)

/-- The receiving node with the messages on their way to it. -/
structure Node (A : Type*) where
  manager : SessionManager A
  inFlight : List (Packet A)
  handed : List (Handed A)
  history : List (Event A)

/-- A step of the two nodes. -/
inductive Label (A : Type*)
  | send (packet : Packet A)
  | deliver (j : Nat)
  | insert (h : InfoHash)
  | remove (h : InfoHash)

section Routing

variable {A : Type*} [DecidableEq A]

/-- No sessions and no messages. -/
def Node.new : Node A := ⟨⟨[], fun _ => none, fun _ => none⟩, [], [], []⟩

/-- A handshake carries the info hash of the session that sends it. -/
def wellFormed (packet : Packet A) : Bool :=
  match packet.message with
  | .handshake infoHash _ => infoHash == packet.onBehalf.asRef
  | _ => true

/-- What a dispatch adds to the history. -/
def dispatchEvents (packet : Packet A) (session : Option Nat) : List (Event A) :=
  match packet.message.isHandshake, session with
  | true, some k => [.bound packet.source k]
  | _, _ => []

/-- One step. Messages are handled by their own tasks, so they are dispatched in any order. -/
def step (n : Node A) : Label A → Option (Node A)
  | .send packet =>
      if wellFormed packet then some { n with inFlight := n.inFlight ++ [packet] } else none
  | .deliver j => (n.inFlight[j]?).map fun packet =>
      let out := dispatch n.manager packet.message packet.source
      { manager := out.1
        inFlight := n.inFlight.eraseIdx j
        handed := n.handed ++ [⟨packet, out.2⟩]
        history := dispatchEvents packet out.2 ++ n.history }
  | .insert h => some { n with manager := insert n.manager h }
  | .remove h => some { n with
      manager := remove n.manager h
      history := (n.manager.byHash h).toList.map .removed ++ n.history }

/-- The session of the last handshake accepted from an address, unless it was removed since. -/
def lastBound (source : A) : List (Event A) → Option Nat
  | [] => none
  | .bound a k :: events => if a = source then some k else lastBound source events
  | .removed k :: events => (lastBound source events).filter (· ≠ k)

/-- A message other than a handshake is dispatched while the last handshake accepted from its
address was for its own torrent and the session of that handshake has not been removed. -/
def AfterOwnHandshake (n : Node A) : Label A → Prop
  | .deliver j => ∀ packet ∈ n.inFlight[j]?, packet.message.isHandshake = false →
      (lastBound packet.source n.history).bind (n.manager.sessions[·]?) = some packet.onBehalf
  | _ => True

instance (n : Node A) : (a : Label A) → Decidable (AfterOwnHandshake n a)
  | .deliver j => inferInstanceAs (Decidable (∀ packet ∈ n.inFlight[j]?,
      packet.message.isHandshake = false →
      (lastBound packet.source n.history).bind (n.manager.sessions[·]?) = some packet.onBehalf))
  | .send _ | .insert _ | .remove _ => .isTrue trivial

/-- Every dispatched message other than a handshake was handed to a session of its torrent. -/
def RoutedRight (n : Node A) : Prop :=
  ∀ d ∈ n.handed, d.packet.message.isHandshake = false →
    d.session.bind (n.manager.sessions[·]?) = some d.packet.onBehalf

/-- The table of peers is what the history says. -/
def Recorded (n : Node A) : Prop := ∀ a, n.manager.byPeer a = lastBound a n.history

variable {n n' : Node A}

/-- A dispatch creates no session. -/
@[simp] theorem dispatch_sessions (m : SessionManager A) (message : StandardMessage) (source : A) :
    (dispatch m message source).1.sessions = m.sessions := by
  unfold dispatch
  split
  · split
    · rfl
    · split <;> rfl
  · rfl

/-- A dispatch changes only the binding of peers, and binds a peer to a session of the table. -/
theorem dispatch_cases (tables : SessionManager A) (message : StandardMessage) (source : A) :
    (dispatch tables message source).1 = tables ∨
      ∃ h k, tables.byHash h = some k ∧ (dispatch tables message source).1 =
        { tables with byPeer := Function.update tables.byPeer source (some k) } := by
  cases message with
  | handshake infoHash peerId =>
    simp only [dispatch]
    cases InfoHash.tryFrom infoHash with
    | error e => exact Or.inl rfl
    | ok h =>
      cases hk : tables.byHash h with
      | none => exact Or.inl (by simp only [hk])
      | some k => exact Or.inr ⟨h, k, hk, by simp only [hk]⟩
  | _ => exact Or.inl rfl

/-- A message other than a handshake changes no table and goes to the session of its peer. -/
theorem dispatch_of_not_handshake {message : StandardMessage} (h : message.isHandshake = false)
    (m : SessionManager A) (source : A) : dispatch m message source = (m, m.byPeer source) := by
  cases message <;> first | rfl | simp [StandardMessage.isHandshake] at h

/-- The table of peers after a dispatch is what the extended history says. -/
theorem dispatch_recorded {packet : Packet A} (hn : Recorded n) (a : A) :
    (dispatch n.manager packet.message packet.source).1.byPeer a =
      lastBound a (dispatchEvents packet
        (dispatch n.manager packet.message packet.source).2 ++ n.history) := by
  cases hm : packet.message.isHandshake with
  | false =>
    rw [dispatch_of_not_handshake hm]
    simp only [dispatchEvents, hm, List.nil_append]
    exact hn a
  | true =>
    obtain ⟨source, onBehalf, message⟩ := packet
    cases message with
    | handshake infoHash peerId =>
      simp only [dispatch, dispatchEvents, StandardMessage.isHandshake]
      cases InfoHash.tryFrom infoHash with
      | error e => exact hn a
      | ok h =>
        cases hk : n.manager.byHash h with
        | none =>
          simp only [hk]
          exact hn a
        | some k =>
          simp only [hk, List.cons_append, List.nil_append, lastBound, Function.update_apply]
          by_cases ha : a = source
          · rw [if_pos ha, if_pos ha.symm]
          · rw [if_neg ha, if_neg (Ne.symm ha)]
            exact hn a
    | _ => simp [StandardMessage.isHandshake] at hm

/-- The history keeps describing the table of peers. -/
theorem Recorded.step {a : Label A} (hn : Recorded n) (h : step n a = some n') : Recorded n' := by
  cases a with
  | send packet =>
    simp only [Routing.step] at h
    split at h
    · rw [← Option.some.inj h]
      exact hn
    · exact absurd h (by simp)
  | deliver j =>
    simp only [Routing.step, Option.map_eq_some_iff] at h
    obtain ⟨packet, _, rfl⟩ := h
    exact dispatch_recorded hn
  | insert h' =>
    simp only [Routing.step, Option.some.injEq] at h
    rw [← h]
    exact hn
  | remove h' =>
    simp only [Routing.step, Option.some.injEq] at h
    rw [← h]
    intro a
    simp only [remove]
    cases hk : n.manager.byHash h' with
    | none => exact hn a
    | some k =>
      simp only [Option.toList_some, List.map_cons, List.map_nil, List.cons_append,
        List.nil_append, lastBound]
      rw [hn a]

/-- Sessions are only ever added. -/
theorem step_sessions {a : Label A} (h : step n a = some n') :
    ∃ more, n'.manager.sessions = n.manager.sessions ++ more := by
  cases a with
  | send packet =>
    simp only [step] at h
    split at h
    · exact ⟨[], by rw [← Option.some.inj h, List.append_nil]⟩
    · exact absurd h (by simp)
  | deliver j =>
    simp only [step, Option.map_eq_some_iff] at h
    obtain ⟨packet, _, rfl⟩ := h
    exact ⟨[], by simp⟩
  | insert h' =>
    simp only [step, Option.some.injEq] at h
    exact ⟨[h'], by rw [← h]; rfl⟩
  | remove h' =>
    simp only [step, Option.some.injEq] at h
    refine ⟨[], ?_⟩
    rw [← h, List.append_nil]
    simp only [remove]
    split <;> rfl

/-- A message that was routed right stays so when sessions are added. -/
theorem bind_session_append {sessions more : List InfoHash} {k : Option Nat} {h : InfoHash}
    (hk : k.bind (sessions[·]?) = some h) : k.bind ((sessions ++ more)[·]?) = some h := by
  obtain ⟨i, rfl, hi⟩ := Option.bind_eq_some_iff.mp hk
  rw [Option.bind_some, List.getElem?_append_left (List.getElem?_eq_some_iff.mp hi).1]
  exact hi

/-- Steps that dispatch nothing keep the routing right. -/
private theorem routedRight_of_same_handed (hn : RoutedRight n) {a : Label A}
    (h : step n a = some n') (hhanded : n'.handed = n.handed) : RoutedRight n' := by
  obtain ⟨more, hmore⟩ := step_sessions h
  intro d hd hm
  rw [hhanded] at hd
  rw [hmore]
  exact bind_session_append (hn d hd hm)

/-- Over a right routing, a step keeps it right exactly when it meets the condition. -/
theorem routedRight_step {a : Label A} (hn : RoutedRight n) (hr : Recorded n)
    (h : step n a = some n') : RoutedRight n' ↔ AfterOwnHandshake n a := by
  cases a with
  | send packet =>
    refine iff_of_true (routedRight_of_same_handed hn h ?_) trivial
    simp only [step] at h
    split at h
    · rw [← Option.some.inj h]
    · exact absurd h (by simp)
  | insert h' =>
    refine iff_of_true (routedRight_of_same_handed hn h ?_) trivial
    simp only [step, Option.some.injEq] at h
    rw [← h]
  | remove h' =>
    refine iff_of_true (routedRight_of_same_handed hn h ?_) trivial
    simp only [step, Option.some.injEq] at h
    rw [← h]
  | deliver j =>
    simp only [step, Option.map_eq_some_iff] at h
    obtain ⟨packet, hp, rfl⟩ := h
    constructor
    · intro hright q hq hm
      have hqp : packet = q := Option.some.inj (hp.symm.trans hq)
      subst hqp
      have hlast := hright ⟨packet, _⟩ (List.mem_append_right _ (List.mem_singleton_self _)) hm
      simp only [dispatch_of_not_handshake hm] at hlast
      rwa [hr packet.source] at hlast
    · intro hc d hd hm
      simp only [dispatch_sessions]
      rcases List.mem_append.mp hd with hd | hd
      · exact hn d hd hm
      · rw [List.mem_singleton] at hd
        subst hd
        rw [dispatch_of_not_handshake hm]
        simp only
        rw [hr packet.source]
        exact hc packet hp hm

/-- In every state of a run each message other than a handshake was handed to a session of
the torrent it was sent for, exactly when each one is dispatched after a handshake of its
own torrent with no other accepted handshake from that address in between. -/
theorem routed_right_iff {A : Type*} [DecidableEq A] (labels : List (Label A)) (last : Node A)
    (h : run step .new labels = some last) :
    (∀ pre post n, labels = pre ++ post → run step .new pre = some n → RoutedRight n) ↔
      Along step AfterOwnHandshake .new labels := by
  have hgood : ∀ n : Node A, RoutedRight n ∧ Recorded n → RoutedRight n := fun _ hn => hn.1
  refine forall_reached_iff_along hgood (fun n a n' hn hstep => ?_) ⟨?_, fun _ => rfl⟩ h
  · exact ⟨routedRight_step hn.1 hn.2 hstep, fun hp => ⟨hp, hn.2.step hstep⟩⟩
  · exact fun d hd => absurd hd List.not_mem_nil

end Routing

/-! ## Two shared torrents -/

/-- The info hash whose bytes are all equal to one byte. -/
def sampleHash (byte : UInt8) : InfoHash := .v1 (Vector.replicate 20 byte)

/-- The handshake of a session. -/
def sampleHandshake (h : InfoHash) : Packet Nat := ⟨7, h, .handshake h.asRef []⟩

/-- A node with two torrents receives a handshake and a message for the first one. -/
def ownHandshakeRun : List (Label Nat) :=
  [.insert (sampleHash 1), .insert (sampleHash 2), .send (sampleHandshake (sampleHash 1)),
    .deliver 0, .send ⟨7, sampleHash 1, .have_ 5⟩, .deliver 0]

/-- A message that follows the handshake of its own torrent reaches its session. -/
theorem routed_right_iff_own_handshake :
    ∃ last, run step .new ownHandshakeRun = some last ∧ last.handed.length = 2 ∧
      RoutedRight last := by
  have hrun : (run step .new ownHandshakeRun).map (fun n => n.handed.length) = some 2 := by
    decide +kernel
  obtain ⟨last, hlast, hcount⟩ := Option.map_eq_some_iff.mp hrun
  exact ⟨last, hlast, hcount, (routed_right_iff ownHandshakeRun last hlast).mpr
    (by decide +kernel) ownHandshakeRun [] last (List.append_nil _).symm hlast⟩

/-- The handshakes of two shared torrents arrive one after the other; the next message of
the first torrent is handed to the session of the second. -/
theorem second_handshake_diverts :
    ∃ last, run step .new [.insert (sampleHash 1), .insert (sampleHash 2),
        .send (sampleHandshake (sampleHash 1)), .deliver 0,
        .send (sampleHandshake (sampleHash 2)), .deliver 0,
        .send ⟨7, sampleHash 1, .have_ 5⟩, .deliver 0] = some last ∧
      last.handed.map (fun d => (d.packet.onBehalf, d.session.bind (last.manager.sessions[·]?))) =
        [(sampleHash 1, some (sampleHash 1)), (sampleHash 2, some (sampleHash 2)),
          (sampleHash 1, some (sampleHash 2))] ∧
      ¬ RoutedRight last := by
  have hrun : (run step .new [.insert (sampleHash 1), .insert (sampleHash 2),
      .send (sampleHandshake (sampleHash 1)), .deliver 0,
      .send (sampleHandshake (sampleHash 2)), .deliver 0,
      .send ⟨7, sampleHash 1, .have_ 5⟩, .deliver 0]).map
      (fun n => (n.handed.map fun d => (d.packet.message.isHandshake, d.packet.onBehalf,
        d.session.bind (n.manager.sessions[·]?)))) =
      some [(true, sampleHash 1, some (sampleHash 1)), (true, sampleHash 2, some (sampleHash 2)),
        (false, sampleHash 1, some (sampleHash 2))] := by decide +kernel
  obtain ⟨last, hlast, hhanded⟩ := Option.map_eq_some_iff.mp hrun
  refine ⟨last, hlast, ?_, fun hright => ?_⟩
  · have hsnd := congrArg (List.map Prod.snd) hhanded
    simpa [Function.comp_def] using hsnd
  · have hmem : (false, sampleHash 1, some (sampleHash 2)) ∈ last.handed.map fun d =>
        (d.packet.message.isHandshake, d.packet.onBehalf,
          d.session.bind (last.manager.sessions[·]?)) := by
      rw [hhanded]
      simp
    obtain ⟨d, hd, he⟩ := List.mem_map.mp hmem
    injection he with hm he
    injection he with hb hs
    have hgot := hright d hd hm
    rw [hs, hb] at hgot
    exact absurd (Option.some.inj hgot) (by decide +kernel)

end Bqti.Session.Routing
