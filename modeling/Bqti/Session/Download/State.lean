import Bqti.Session.BitField
import Bqti.Torrent.Metainfo

/-!
# State of a downloading session

A downloading session is a set of concurrent tasks over one shared record: calls of
`process_piece`, the downloader workers, the write tasks that a worker spawns, and the
transitions that pause, resume and cancel. Each task carries the point it has reached;
finished tasks stay in their list so that a task keeps its number. A worker is numbered
by the generation of its channel.
-/

namespace Bqti.Session.Download

open Bqti.Core Bqti.Torrent

/-- What a session reads of its torrent. -/
structure Metadata where
  pieceHashes : List Bytes
  verifyHash : UInt32 → Bytes → Except TorrentError Unit

/-- The metadata of a version 1 torrent. -/
def Metadata.ofV1 (sha1 : Bytes → Hash20) (torrent : TorrentV1) : Metadata :=
  ⟨torrent.pieceHashes, torrent.verifyHash sha1⟩

/-- Where a call of `process_piece` stands. -/
inductive PiecePc
  | start
  | added
  | counted
  | finished
  deriving DecidableEq, Repr

/-- A call of `process_piece` for a payload that a peer sent. -/
structure PieceTask where
  index : UInt32
  data : Bytes
  pc : PiecePc
  deriving DecidableEq, Repr

/-- Where a write task stands; a dropped task could not upgrade its weak handle. -/
inductive WritePc
  | spawned
  | upgraded
  | verified
  | written
  | finished
  | dropped
  deriving DecidableEq, Repr

/-- The task has upgraded its weak handle and still holds the resources. -/
def WritePc.holdsResources : WritePc → Bool
  | .upgraded | .verified | .written => true
  | .spawned | .finished | .dropped => false

/-- A write task of one worker. -/
structure WriteTask where
  gen : Nat
  index : UInt32
  data : Bytes
  pc : WritePc
  deriving DecidableEq, Repr

/-- Why a worker left its loop. -/
inductive ExitReason
  | cancelled
  | done
  | closed
  deriving DecidableEq, Repr

/-- Where a downloader worker stands. -/
inductive WorkerPc
  | spawned
  | looping
  | persisting (snapshot : BitField)
  | left (reason : ExitReason)
  | leftPersisting (reason : ExitReason) (snapshot : BitField)
  | persisted (reason : ExitReason)
  | released (reason : ExitReason)
  | completed (reason : ExitReason)
  | stopped
  deriving DecidableEq, Repr

/-- The worker still owns a strong handle of its resources. -/
def WorkerPc.ownsResources : WorkerPc → Bool
  | .looping | .persisting _ | .left _ | .leftPersisting _ _ | .persisted _ => true
  | .spawned | .released _ | .completed _ | .stopped => false

/-- The bitfield that a worker is about to write to the resume file. -/
def WorkerPc.snapshots : WorkerPc → List BitField
  | .persisting b | .leftPersisting _ b => [b]
  | _ => []

/-- A downloader worker with its cancellation token, its done signal and what was sent to
its channel and not received; nothing receives any more once the worker has stopped. -/
structure Worker where
  pc : WorkerPc
  cancelled : Bool
  queue : List (UInt32 × Bytes)
  doneSent : Bool
  deriving DecidableEq, Repr

/-- A worker that was just spawned. -/
def Worker.new (cancelled : Bool) : Worker := ⟨.spawned, cancelled, [], false⟩

/-- What a paused session goes back to. -/
inductive LastState
  | downloading
  deriving DecidableEq, Repr

/-- The state of a session up to seeding; a downloading state names the generation of its
channel and says whether its resources are still there to be taken. -/
inductive TorrentState
  | idle (last : Option LastState)
  | downloading (gen : Nat) (resources : Bool)
  | cancelled
  deriving DecidableEq, Repr

/-- The requested transitions of a downloading session. -/
inductive Transition
  | download
  | pause
  | resume
  | cancel
  deriving DecidableEq, Repr

/-- The transition table of the source. -/
def TorrentState.canTransitionTo : TorrentState → Transition → Bool
  | .idle none, .download => true
  | .downloading _ _, .pause => true
  | .downloading _ _, .cancel => true
  | .idle (some _), .resume => true
  | .idle (some _), .cancel => true
  | _, _ => false

/-- Where a transition stands. -/
inductive TransitionPc
  | requested
  | checked
  | innerCancelled
  | opening
  | opened (resume : Option BitField)
  | loaded
  | swapping (next : TorrentState)
  | finished
  deriving DecidableEq, Repr

/-- The bitfield that a transition has read from the resume file. -/
def TransitionPc.snapshots : TransitionPc → List BitField
  | .opened resume => resume.toList
  | _ => []

/-- A call of `transition`. -/
structure TransitionTask where
  target : Transition
  pc : TransitionPc
  deriving DecidableEq, Repr

/-- The shared record of a session with all its tasks, the resume file and the log of the
pieces whose write returned successfully. -/
structure State where
  bitfield : BitField
  state : TorrentState
  pendingWrites : Nat
  pieces : List PieceTask
  workers : List Worker
  writes : List WriteTask
  transitions : List TransitionTask
  resume : Option BitField
  written : List (UInt32 × Bytes)
  deriving DecidableEq, Repr

/-- A new session over the resume file it finds. -/
def State.new (torrent : Metadata) (resume : Option BitField) : State where
  bitfield := .empty torrent.pieceHashes.length
  state := .idle none
  pendingWrites := 0
  pieces := []
  workers := []
  writes := []
  transitions := []
  resume := resume
  written := []

namespace State

/-- Move a call of `process_piece`. -/
def setPiece (s : State) (k : Nat) (t : PieceTask) (pc : PiecePc) : State :=
  { s with pieces := s.pieces.set k { t with pc := pc } }

/-- Move a write task. -/
def setWrite (s : State) (k : Nat) (t : WriteTask) (pc : WritePc) : State :=
  { s with writes := s.writes.set k { t with pc := pc } }

/-- Move a transition. -/
def setTransition (s : State) (k : Nat) (t : TransitionTask) (pc : TransitionPc) : State :=
  { s with transitions := s.transitions.set k { t with pc := pc } }

/-- Replace a worker. -/
def setWorker (s : State) (gen : Nat) (w : Worker) : State :=
  { s with workers := s.workers.set gen w }

/-- A weak handle of a worker's resources upgrades while the worker or another task of it
still holds them. -/
def upgradable (s : State) (gen : Nat) : Bool :=
  (s.workers[gen]?).any (fun w => w.pc.ownsResources) ||
    s.writes.any fun t => t.gen == gen && t.pc.holdsResources

/-- The channel of the current state exists and its receiver has not been dropped. -/
def channelOpen (s : State) : Bool :=
  match s.state with
  | .downloading gen _ => (s.workers[gen]?).any fun w => w.pc != .stopped
  | _ => false

/-- Cancel the token of a worker. -/
def cancelToken (s : State) (gen : Nat) : State :=
  { s with workers := s.workers.modify gen fun w => { w with cancelled := true } }

/-- Send the done signal of a worker. -/
def sendDone (s : State) (gen : Nat) : State :=
  { s with workers := s.workers.modify gen fun w => { w with doneSent := true } }

/-- Cancel the token of the current state, if it has one. -/
def cancelInner (s : State) : State :=
  match s.state with
  | .downloading gen _ => s.cancelToken gen
  | _ => s

/-- Replace the state unless the session is cancelled; the replaced state cancels its own
token when it is dropped. -/
def swapState (s : State) (next : TorrentState) : State :=
  match s.state with
  | .cancelled => s
  | _ => { s.cancelInner with state := next }

/-- A bitfield that the session holds in memory, on disk or on its way between them. -/
def Holds (s : State) (b : BitField) : Prop :=
  b = s.bitfield ∨ s.resume = some b ∨ (∃ w ∈ s.workers, b ∈ w.pc.snapshots) ∨
    ∃ t ∈ s.transitions, b ∈ t.pc.snapshots

end State

/-- An index is durable when verified data was written for it in this session, or when the
resume file that the session found at its start marks it. -/
def Durable (torrent : Metadata) (resume : Option BitField) (s : State) (index : Nat) : Prop :=
  (∃ b, resume = some b ∧ b.haveBit index = some true) ∨
    ∃ e ∈ s.written, e.1.toNat = index ∧ torrent.verifyHash e.1 e.2 = .ok ()

end Bqti.Session.Download
