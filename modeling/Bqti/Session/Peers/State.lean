import Mathlib.Data.List.AList
import Bqti.Core.Pool
import Bqti.Session.Download.Step
import Bqti.Session.Routing
import Bqti.Session.Peers.Pipeline

/-!
# Peers of a session

The tasks of a node share the mode and the bitfield of a session, its table of peers, the
pipelines and the table by which messages find their session. Pipelines are numbered, so that a
task may hold one that has left the table. A broadcast reads the table of peers for as long as
it sends, and nobody writes the table meanwhile.

The history of an address is read by no task. It records, newest first, what was sent there,
which handshakes were recorded, when a pipeline was opened and when the entry was removed.
-/

namespace Bqti.Session.Peers

open Bqti.Core Bqti.Dht Bqti.Torrent
open Bqti.Session.Routing (StandardMessage SessionManager)

variable {D P S A : Type*}

/-- What a session does with messages. -/
inductive ActiveMode
  | downloading
  | seeding
  | idle
  deriving DecidableEq, Repr

/-- The entry of an address; an active one names its pipeline. -/
inductive PeerState
  | connecting
  | pending (peerId : Bytes) (weInitiated : Bool)
  | active (pipe : Nat)
  deriving DecidableEq, Repr

/-- What happened at an address. -/
inductive Event
  | sent (message : StandardMessage)
  | greeted (infoHash : InfoHash) (peerId : Bytes)
  | opened
  | gone
  | asked (index : UInt32)
  deriving DecidableEq

/-- What a node fixes for a session: its libraries, its own peer id, the torrent and the number
of the session. -/
structure Host (D P S : Type*) where
  crypto : Crypto D P S
  id : Bytes
  infoHash : InfoHash
  pieceCount : Nat
  session : Nat

/-- What the tasks of a session share. -/
structure TorrentSession (D A : Type*) where
  mode : ActiveMode
  bitfield : BitField
  manager : SessionManager A
  peers : AList fun _ : A => PeerState
  readers : Nat
  pipelines : List (Pipeline D A)
  history : A → List Event

namespace TorrentSession

/-- Write a pipeline. -/
def setPipeline (s : TorrentSession D A) (pipe : Nat) (p : Pipeline D A) : TorrentSession D A :=
  { s with pipelines := s.pipelines.set pipe p }

section SetPipeline

variable (s : TorrentSession D A) (pipe : Nat) (p : Pipeline D A)

@[simp] theorem setPipeline_pipelines :
    (s.setPipeline pipe p).pipelines = s.pipelines.set pipe p := rfl
@[simp] theorem setPipeline_readers : (s.setPipeline pipe p).readers = s.readers := rfl
@[simp] theorem setPipeline_history : (s.setPipeline pipe p).history = s.history := rfl
@[simp] theorem setPipeline_manager : (s.setPipeline pipe p).manager = s.manager := rfl
@[simp] theorem setPipeline_mode : (s.setPipeline pipe p).mode = s.mode := rfl

end SetPipeline

variable [DecidableEq A]

/-- The entry of an address. -/
def peer (s : TorrentSession D A) (a : A) : Option PeerState := s.peers.lookup a

/-- The pipeline of an address. -/
def getPipeline (s : TorrentSession D A) (a : A) : Option Nat :=
  match s.peer a with
  | some (.active pipe) => some pipe
  | _ => none

/-- The peer id that an address is pending with. -/
def getPendingPeer (s : TorrentSession D A) (a : A) : Option Bytes :=
  match s.peer a with
  | some (.pending peerId _) => some peerId
  | _ => none

/-- Whether an address is pending and was dialled by us. -/
def isPendingOutbound (s : TorrentSession D A) (a : A) : Bool :=
  match s.peer a with
  | some (.pending _ true) => true
  | _ => false

/-- The addresses that a broadcast is sent to. -/
def activePeers (s : TorrentSession D A) : List A :=
  s.peers.keys.filter fun a => (s.getPipeline a).isSome

/-- Add to the history of an address. -/
def record (s : TorrentSession D A) (a : A) (e : Event) : TorrentSession D A :=
  { s with history := Function.update s.history a (e :: s.history a) }

/-- Write the entry of an address. -/
def setPeer (s : TorrentSession D A) (a : A) (entry : PeerState) : TorrentSession D A :=
  { s with peers := s.peers.insert a entry }

/-- Send a message. -/
def send (s : TorrentSession D A) (a : A) (message : StandardMessage) : TorrentSession D A :=
  s.record a (.sent message)

/-- Make an address pending. -/
def insertPending (s : TorrentSession D A) (a : A) (peerId : Bytes) (weInitiated : Bool) :
    TorrentSession D A :=
  s.setPeer a (.pending peerId weInitiated)

/-- Make an address active with a new pipeline. -/
def insertPipeline (s : TorrentSession D A) (host : Host D P S) (a : A) (peerId bitfield : Bytes) :
    TorrentSession D A :=
  { (s.setPeer a (.active s.pipelines.length)).record a .opened with
    pipelines := s.pipelines ++
      [.new ⟨Key.new host.crypto peerId, a⟩ (.fromWire bitfield host.pieceCount)] }

/-- Remove the entry of an address. -/
def terminateWith (s : TorrentSession D A) (a : A) : TorrentSession D A :=
  { s.record a .gone with peers := s.peers.erase a }

/-- Mark a piece of the session; `none` is a panic. -/
def addPiece (s : TorrentSession D A) (index : UInt32) : Option (Bool × TorrentSession D A) :=
  (Download.addPiece s.bitfield index).map fun (added, bitfield) =>
    (added, { s with bitfield := bitfield })

/-- Take the table of peers for reading while messages are sent. -/
def lock (s : TorrentSession D A) : TorrentSession D A := { s with readers := s.readers + 1 }

/-- Give it back. -/
def unlock (s : TorrentSession D A) : TorrentSession D A := { s with readers := s.readers - 1 }

/-! ## What each update leaves alone -/

section Frame

variable (s : TorrentSession D A) (host : Host D P S) (a b : A) (e : Event) (entry : PeerState)
  (pipe : Nat) (p : Pipeline D A) (message : StandardMessage) (peerId bits : Bytes)
  (weInitiated : Bool)

@[simp] theorem record_peer : (s.record a e).peer b = s.peer b := rfl
@[simp] theorem record_pipelines : (s.record a e).pipelines = s.pipelines := rfl
@[simp] theorem record_readers : (s.record a e).readers = s.readers := rfl
@[simp] theorem record_manager : (s.record a e).manager = s.manager := rfl
@[simp] theorem record_mode : (s.record a e).mode = s.mode := rfl
@[simp] theorem record_history_self : (s.record a e).history a = e :: s.history a := by
  simp [record]

variable {a b} in
/-- An event is noted in the history of its address only. -/
theorem record_history_of_ne (h : b ≠ a) : (s.record a e).history b = s.history b := by
  simp [record, h]

@[simp] theorem setPeer_peer_self : (s.setPeer a entry).peer a = some entry :=
  AList.lookup_insert s.peers

variable {a b} in
/-- An entry is set for its address only. -/
theorem setPeer_peer_of_ne (h : b ≠ a) : (s.setPeer a entry).peer b = s.peer b :=
  AList.lookup_insert_ne h

@[simp] theorem setPeer_pipelines : (s.setPeer a entry).pipelines = s.pipelines := rfl
@[simp] theorem setPeer_readers : (s.setPeer a entry).readers = s.readers := rfl
@[simp] theorem setPeer_history : (s.setPeer a entry).history = s.history := rfl
@[simp] theorem setPeer_manager : (s.setPeer a entry).manager = s.manager := rfl
@[simp] theorem setPeer_mode : (s.setPeer a entry).mode = s.mode := rfl

@[simp] theorem setPipeline_peer : (s.setPipeline pipe p).peer b = s.peer b := rfl

@[simp] theorem send_peer : (s.send a message).peer b = s.peer b := rfl
@[simp] theorem send_pipelines : (s.send a message).pipelines = s.pipelines := rfl
@[simp] theorem send_readers : (s.send a message).readers = s.readers := rfl
@[simp] theorem send_manager : (s.send a message).manager = s.manager := rfl
@[simp] theorem send_mode : (s.send a message).mode = s.mode := rfl
@[simp] theorem send_history_self :
    (s.send a message).history a = .sent message :: s.history a := record_history_self ..

variable {a b} in
/-- A message is noted in the history of its address only. -/
theorem send_history_of_ne (h : b ≠ a) : (s.send a message).history b = s.history b :=
  record_history_of_ne s _ h

@[simp] theorem insertPending_peer_self :
    (s.insertPending a peerId weInitiated).peer a = some (.pending peerId weInitiated) :=
  setPeer_peer_self ..

variable {a b} in
/-- A pending entry is inserted for its address only. -/
theorem insertPending_peer_of_ne (h : b ≠ a) :
    (s.insertPending a peerId weInitiated).peer b = s.peer b := setPeer_peer_of_ne s _ h

@[simp] theorem insertPending_pipelines :
    (s.insertPending a peerId weInitiated).pipelines = s.pipelines := rfl
@[simp] theorem insertPending_readers :
    (s.insertPending a peerId weInitiated).readers = s.readers := rfl
@[simp] theorem insertPending_history :
    (s.insertPending a peerId weInitiated).history = s.history := rfl
@[simp] theorem insertPending_manager :
    (s.insertPending a peerId weInitiated).manager = s.manager := rfl

@[simp] theorem insertPipeline_peer_self :
    (s.insertPipeline host a peerId bits).peer a = some (.active s.pipelines.length) :=
  setPeer_peer_self ..

variable {a b} in
/-- A pipeline is inserted for its address only. -/
theorem insertPipeline_peer_of_ne (h : b ≠ a) :
    (s.insertPipeline host a peerId bits).peer b = s.peer b := setPeer_peer_of_ne s _ h

@[simp] theorem insertPipeline_pipelines :
    (s.insertPipeline host a peerId bits).pipelines = s.pipelines ++
      [.new ⟨Key.new host.crypto peerId, a⟩ (.fromWire bits host.pieceCount)] := rfl
@[simp] theorem insertPipeline_readers :
    (s.insertPipeline host a peerId bits).readers = s.readers := rfl
@[simp] theorem insertPipeline_history_self :
    (s.insertPipeline host a peerId bits).history a = .opened :: s.history a := by
  simp [insertPipeline]

variable {a b} in
/-- A new pipeline keeps the other histories. -/
theorem insertPipeline_history_of_ne (h : b ≠ a) :
    (s.insertPipeline host a peerId bits).history b = s.history b :=
  record_history_of_ne (s.setPeer a (.active s.pipelines.length)) _ h

@[simp] theorem terminateWith_peer_self : (s.terminateWith a).peer a = none :=
  AList.lookup_erase a s.peers

variable {a b} in
/-- Terminating a peer keeps the other entries. -/
theorem terminateWith_peer_of_ne (h : b ≠ a) : (s.terminateWith a).peer b = s.peer b :=
  AList.lookup_erase_ne h

@[simp] theorem terminateWith_pipelines : (s.terminateWith a).pipelines = s.pipelines := rfl
@[simp] theorem terminateWith_history_self :
    (s.terminateWith a).history a = .gone :: s.history a := record_history_self ..

variable {a b} in
/-- Terminating a peer keeps the other histories. -/
theorem terminateWith_history_of_ne (h : b ≠ a) :
    (s.terminateWith a).history b = s.history b := record_history_of_ne s _ h

end Frame

/-- The pipeline of an address is the one its entry names. -/
theorem getPipeline_eq_some {s : TorrentSession D A} {a : A} {pipe : Nat} :
    s.getPipeline a = some pipe ↔ s.peer a = some (.active pipe) := by
  unfold getPipeline
  split <;> simp_all

omit [DecidableEq A] in
/-- Marking a piece changes the bitfield only. -/
theorem addPiece_eq_some {s s' : TorrentSession D A} {index : UInt32} {added : Bool}
    (h : s.addPiece index = some (added, s')) :
    ∃ bitfield, s' = { s with bitfield := bitfield } := by
  obtain ⟨⟨_, bitfield⟩, _, he⟩ := Option.map_eq_some_iff.mp h
  cases he
  exact ⟨bitfield, rfl⟩

end TorrentSession

end Bqti.Session.Peers
