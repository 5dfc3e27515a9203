import Bqti.Core.Run
import Bqti.Core.Pool
import Bqti.Ipc.State
import Bqti.Session.Manager

/-!
# The daemon and the table of its clients

Clients ask the daemon to add, pause, resume and remove torrents. The sessions live in the
table of the session manager, where one worker enters what is queued; the table for the
clients is changed by the events of the requests and of the sessions. Requests, the restoring
of cached sessions, the worker and the forwarding of session events are tasks that run
concurrently. What a request loads or builds, and what becomes of a transition of a session
or of its creation, comes from the surroundings and is part of the labels.
-/

namespace Bqti.Ipc.Daemon

open Bqti.Core Bqti.Torrent
open Bqti.Session.Manager (QueuedTorrent SessionMode torrentQueueSize)
open Bqti.Session.Cache (CachingMode)

/-! ## Info hashes as text -/

/-- The value of a hexadecimal digit of either case. -/
def hexValue (c : Char) : Option Nat :=
  if '0' ≤ c ∧ c ≤ '9' then some (c.toNat - '0'.toNat)
  else if 'a' ≤ c ∧ c ≤ 'f' then some (c.toNat - 'a'.toNat + 10)
  else if 'A' ≤ c ∧ c ≤ 'F' then some (c.toNat - 'A'.toNat + 10)
  else none

/-- Read two digits for every byte. -/
def hexDecode : List Char → Option Bytes
  | [] => some []
  | [_] => none
  | high :: low :: rest =>
      (hexValue high).bind fun h => (hexValue low).bind fun l =>
        (hexDecode rest).map fun bytes => UInt8.ofNat (16 * h + l) :: bytes

/-- Forty digits are a version 1 hash and sixty-four a version 2 hash. -/
def fromHex (s : String) : Option InfoHash :=
  if s.utf8ByteSize = 40 ∨ s.utf8ByteSize = 64 then
    (hexDecode s.toList).bind fun bytes => (InfoHash.tryFrom bytes).toOption
  else none

/-! ## Events of a session -/

/-- What a session reports. -/
inductive SessionEvent
  | pieceVerified (totalPieces current : UInt32)
  | seedStarted
  | idle
  | pieceDownloaded (totalPieces current : UInt32)
  | downloadCompleted (resourcePath : String)

/-- The event for the clients, with the magnet link of a torrent as a parameter. -/
def SessionEvent.toEvent (magnet : TorrentFile → String) (torrent : TorrentFile) :
    SessionEvent → Event
  | .pieceVerified totalPieces current =>
      .sessionStateChanged torrent.infoHash.display torrent.name (.verifying current totalPieces)
  | .seedStarted => .exposeTorrent torrent.infoHash.display (magnet torrent)
  | .pieceDownloaded totalPieces current =>
      .sessionStateChanged torrent.infoHash.display torrent.name
        (.downloading current totalPieces 0)
  | .downloadCompleted resourcePath =>
      .downloadComplted torrent.infoHash.display resourcePath
  | .idle => .sessionStateChanged torrent.infoHash.display torrent.name .paused

/-! ## Requests -/

/-- The requests that act on torrents. A request to add comes with what was loaded or built
for it and passed validation. -/
inductive Request
  | addDownload (torrent : Except String TorrentFile) (userSpace : Path)
  | addSeed (torrent : Except String TorrentFile) (path : Path)
  | pauseSession (infoHash : String)
  | resumeSession (infoHash : String)
  | removeTorrent (infoHash : String)

/-- The answers. -/
inductive Response
  | handled
  | torrentAdded (infoHash : String)
  | seedAdded (infoHash : String)
  | removed (infoHash : String)
  deriving DecidableEq

/-- Where a request stands. -/
inductive Call
  | checking (item : QueuedTorrent)
  | sending (item : QueuedTorrent)
  | announcing (item : QueuedTorrent)
  | removing (h : InfoHash)
  | withdrawing (h : InfoHash)
  | pausing (h : InfoHash)
  | suspending (h : InfoHash)
  | reporting (h : InfoHash)
  | resuming (h : InfoHash)
  | restarting (h : InfoHash)
  | finished (reply : Except String Response)

/-- Whether a request has been answered. -/
def Call.isFinished : Call → Bool
  | .finished _ => true
  | _ => false

/-- A request about a torrent starts by reading its hash. -/
def startWith (infoHash : String) (next : InfoHash → Call) : Call :=
  match fromHex infoHash with
  | none => .finished (.error "info hash invalid")
  | some h => next h

/-- A torrent that could not be loaded or built ends the request. -/
def startAdd (torrent : Except String TorrentFile) (mode : SessionMode) : Call :=
  match torrent with
  | .error e => .finished (.error e)
  | .ok torrent => .checking ⟨mode, torrent⟩

/-- The start of `dispatch`. -/
def Request.start : Request → Call
  | .addDownload torrent userSpace => startAdd torrent (.download userSpace)
  | .addSeed torrent path => startAdd torrent (.seed path)
  | .pauseSession infoHash => startWith infoHash .pausing
  | .resumeSession infoHash => startWith infoHash .resuming
  | .removeTorrent infoHash => startWith infoHash .removing

/-- The answer to a request to add. -/
def addedResponse (item : QueuedTorrent) : Response :=
  match item.mode with
  | .download _ => .torrentAdded item.torrent.infoHash.display
  | .seed _ => .seedAdded item.torrent.infoHash.display

/-! ## The daemon -/

/-- Where the queue worker stands. -/
inductive Worker
  | idle
  | creating (item : QueuedTorrent)
  | inserting (item : QueuedTorrent)

/-- The torrent in the hands of the worker. -/
def Worker.item : Worker → Option QueuedTorrent
  | .idle => none
  | .creating item => some item
  | .inserting item => some item

/-- The task that hands the events of the sessions to the server: it subscribes when the daemon
serves, holds the event it is handing over, and ends when it lags behind, after it has handed over
the event it holds. -/
inductive Forwarder
  | absent
  | following (held : Option Event) (pending : List Event)
  | ending (held : Event)
  | stopped

/-- The capacity of the channel of session events. -/
def broadcastIpcEventSize : Nat := 32

/-- The channel ends for a forwarder that lags, but not the event in its hands. -/
def Forwarder.lagging : Option Event → Forwarder
  | some held => .ending held
  | none => .stopped

/-- An event of a session is sent. -/
def Forwarder.push (e : Event) : Forwarder → Forwarder
  | .absent => .absent
  | .following held pending =>
      if pending.length < broadcastIpcEventSize then .following held (pending ++ [e])
      else .lagging held
  | .ending held => .ending held
  | .stopped => .stopped

/-- The events on their way to the server. -/
def Forwarder.events : Forwarder → List Event
  | .following held pending => held.toList ++ pending
  | .ending held => [held]
  | .absent | .stopped => []

/-- The table of the sessions with their metadata, the queue and its worker, what is to be
restored, the torrents for which events are reported, the forwarder, the requests and the
table of the clients. -/
structure Node where
  byHash : InfoHash → Option TorrentFile
  queue : List QueuedTorrent
  worker : Worker
  restore : List CachingMode
  reporters : List TorrentFile
  forwarder : Forwarder
  calls : List Call
  ipc : IpcState

/-- The daemon as it starts with a cache. -/
def Node.start (cached : List CachingMode) : Node where
  byHash _ := none
  queue := []
  worker := .idle
  restore := cached
  reporters := []
  forwarder := .absent
  calls := []
  ipc := .default

/-- The steps. The outcome of a transition matters only to a request that waits for one. -/
inductive Label
  | request (r : Request)
  | advance (i : Nat) (outcome : Except String Unit)
  | restore
  | receive
  | create (outcome : Except String Unit)
  | insert
  | report (i : Nat) (event : SessionEvent)
  | subscribe
  | take
  | forward

namespace Node

/-- Replace one of the calls. -/
def setCall (d : Node) (i : Nat) (c : Call) : Node := { d with calls := d.calls.set i c }

/-- Take over an event and send it. -/
def emit (d : Node) (e : Event) : Node := { d with ipc := (d.ipc.apply e).1 }

/-- The session of a torrent is taken from the table. -/
def removeSession (d : Node) (h : InfoHash) : Node :=
  { d with byHash := Function.update d.byHash h none }

/-- A session is entered in the table. -/
def insertSession (d : Node) (item : QueuedTorrent) : Node :=
  { d with
    byHash := Function.update d.byHash item.torrent.infoHash (some item.torrent)
    worker := .idle }

end Node

/-- The outcome of a transition decides how a request goes on. -/
def afterTransition (outcome : Except String Unit) (next : Call) : Call :=
  match outcome with
  | .error e => .finished (.error e)
  | .ok () => next

/-- A request needs the session of its torrent. -/
def withSession (d : Node) (h : InfoHash) (next : Call) : Call :=
  if (d.byHash h).isSome then next
  else .finished (.error ("session identified by " ++ h.display ++ ", doesn't exist"))

/-- One step of a request. -/
def stepCall (d : Node) (i : Nat) (outcome : Except String Unit) : Call → Option Node
  | .checking item =>
      if (d.byHash item.torrent.infoHash).isSome then
        some (d.setCall i (.finished (.error
          ("torrent already exists, " ++ item.torrent.infoHash.display))))
      else some (d.setCall i (.sending item))
  | .sending item =>
      if d.queue.length < torrentQueueSize then
        some { d.setCall i (.announcing item) with queue := d.queue ++ [item] }
      else none
  | .announcing item =>
      some ((d.setCall i (.finished (.ok (addedResponse item)))).emit
        (.torrentAdded item.torrent.infoHash.display item.torrent.name .pending))
  | .removing h => some ((d.setCall i (.withdrawing h)).removeSession h)
  | .withdrawing h =>
      some ((d.setCall i (.finished (.ok (.removed h.display)))).emit
        (.torrentRemoved h.display))
  | .pausing h => some (d.setCall i (withSession d h (.suspending h)))
  | .suspending h => some (d.setCall i (afterTransition outcome (.reporting h)))
  | .reporting h =>
      some ((d.setCall i (.finished (.ok .handled))).emit
        (.sessionStateChanged h.display "" .paused))
  | .resuming h => some (d.setCall i (withSession d h (.restarting h)))
  | .restarting _ => some (d.setCall i (afterTransition outcome (.finished (.ok .handled))))
  | .finished _ => none

/-- Send the next cached session to the queue. -/
def stepRestore (d : Node) : Option Node :=
  match d.restore with
  | [] => none
  | entry :: entries =>
      if d.queue.length < torrentQueueSize then
        some { d with restore := entries, queue := d.queue ++ [.ofCache entry] }
      else none

/-- The worker takes a torrent from the queue and starts to report its events. -/
def stepReceive (d : Node) : Option Node :=
  match d.worker, d.queue with
  | .idle, item :: queue =>
      some { d with
        worker := .creating item
        queue := queue
        reporters := d.reporters ++ [item.torrent] }
  | _, _ => none

/-- A session that could not be created is given up. -/
def stepCreate (d : Node) (outcome : Except String Unit) : Option Node :=
  match d.worker with
  | .creating item =>
      match outcome with
      | .ok () => some { d with worker := .inserting item }
      | .error _ => some { d with worker := .idle }
  | .idle | .inserting _ => none

/-- Insert the session that the worker has created. -/
def stepInsert (d : Node) : Option Node :=
  match d.worker with
  | .inserting item => some (d.insertSession item)
  | .idle | .creating _ => none

/-- The forwarder takes the next event from the channel. -/
def stepTake (d : Node) : Option Node :=
  match d.forwarder with
  | .following none (e :: pending) => some { d with forwarder := .following (some e) pending }
  | _ => none

/-- The forwarder hands its event to the server. -/
def stepForward (d : Node) : Option Node :=
  match d.forwarder with
  | .following (some e) pending =>
      some (Node.emit { d with forwarder := .following none pending } e)
  | .ending e => some (Node.emit { d with forwarder := .stopped } e)
  | _ => none

/-- One step. -/
def step (magnet : TorrentFile → String) (d : Node) : Label → Option Node
  | .request r => some { d with calls := d.calls ++ [r.start] }
  | .advance i outcome => d.calls[i]?.bind (stepCall d i outcome)
  | .restore => stepRestore d
  | .receive => stepReceive d
  | .create outcome => stepCreate d outcome
  | .insert => stepInsert d
  | .report i event =>
      d.reporters[i]?.map fun torrent =>
        { d with forwarder := d.forwarder.push (event.toEvent magnet torrent) }
  | .subscribe =>
      match d.forwarder with
      | .absent => some { d with forwarder := .following none [] }
      | .following _ _ | .ending _ | .stopped => none
  | .take => stepTake d
  | .forward => stepForward d

end Bqti.Ipc.Daemon
