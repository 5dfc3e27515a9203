import Bqti.Session.Cache
import Bqti.Session.Routing
import Bqti.Session.Lifecycle.Ownership
import Bqti.Torrent.Saved

/-!
# Removing a session

`remove` takes a session out of both tables, deletes the directory of its current state and lets
go of it. The token of the state is only cancelled when the session is dropped, which happens
with the last strong reference: calls under way, running workers, message handlers and the
peer discovery all hold one. The model follows one session of a node, with the other sessions
and the disk around it, from its creation to the time after its removal.
-/

namespace Bqti.Session.Removal

open Bqti.Core Bqti.Chunks Bqti.Torrent
open Bqti.Session.Routing (SessionManager StandardMessage)
open Bqti.Session.Cache (Entry Kind Sections RemoveOutcome loadFromCache)
open Bqti.Session.Lifecycle (FileSystem LastState Metafile Pc SessionCache State StateResources
  TorrentState Transition openSeed)

/-! ## The surroundings -/

/-- What stays the same while a node runs: the codec, the data directory of the user and the
torrent of the session. -/
structure Setting where
  tree : TreeCodec
  sha1 : Bytes → Hash20
  sha256 : Bytes → Hash32
  home : Path
  torrent : TorrentFile

namespace Setting

variable (w : Setting)

/-- The codec of torrent files. -/
def codec : LoadCodec := bencodeCodec w.tree w.sha1 w.sha256

/-- The info hash of the session. -/
def hash : InfoHash := w.torrent.infoHash

/-- What the session reads of its torrent. -/
def metafile : Metafile where
  infoHash := w.torrent.infoHash.asRef
  pieceLength := w.torrent.pieceLength.value
  files := w.torrent.files
  pieceHashes :=
    match w.torrent with
    | .v1 torrent => torrent.pieceHashes
    | .v2 torrent => torrent.pieceLayers.map Prod.snd

/-- The contents of the torrent file of the session. -/
def saved : Bytes := save w.tree w.torrent

/-- Whether a restart that finds this torrent file gets a torrent of the same info hash. -/
def reloads : Bool := Entry.caches w.codec w.hash ⟨[], true, some w.saved⟩

/-- The cache directory of a torrent in a section. -/
def cacheDir (kind : Kind) (infoHash : Bytes) : Path :=
  let name := match kind with
    | .downloads => "downloads".toList
    | .uploads => "uploads".toList
  push (push (push w.home "bqti".toList) name) (hexEncode infoHash)

/-- A file system whose cache directories lie below the data directory. -/
def anchor (fs : FileSystem) : FileSystem :=
  { fs with
    ensureDownloadDir := fun infoHash =>
      (fs.ensureDownloadDir infoHash).map fun _ => w.cacheDir .downloads infoHash
    ensureUploadDir := fun userBase metadata =>
      (fs.ensureUploadDir userBase metadata).map fun _ => w.cacheDir .uploads metadata.infoHash }

/-- A step of the session on such a file system. -/
def anchorLabel : Lifecycle.Label → Lifecycle.Label
  | .call k fs => .call k (w.anchor fs)
  | l => l

end Setting

/-! ## The session and what holds it -/

/-- Where a session stands in the manager, with its number once it has one. While it is
`unlisted` the call of `remove` waits for the lock of its state. -/
inductive Phase
  | creating
  | listed (session : Nat)
  | unlisted (session : Nat)
  | removed (session : Nat)
  deriving DecidableEq, Repr

/-- Until it is removed, the manager or one of its tasks holds the session. -/
def Phase.holds : Phase → Bool
  | .creating | .listed _ | .unlisted _ => true
  | .removed _ => false

/-- The table of the manager has the session. -/
def Phase.isListed : Phase → Bool
  | .listed _ => true
  | .creating | .unlisted _ | .removed _ => false

/-- `remove` has returned. -/
def Phase.isRemoved : Phase → Bool
  | .removed _ => true
  | .creating | .listed _ | .unlisted _ => false

/-- Where the peer discovery of the session stands. It keeps its reference for good once it runs,
because its loop ends only with the session or with the router that the session holds. -/
inductive Discovery
  | absent
  | spawned
  | running
  | ended
  deriving DecidableEq, Repr

/-- One session of a node. Handlers are the tasks that hold the session for a while. -/
structure Node (A : Type*) where
  session : State
  tables : SessionManager A
  disk : Sections
  handlers : Nat
  discovery : Discovery
  phase : Phase

/-- The steps of the node. A step of the session says whether writing a torrent file succeeds. -/
inductive Label (A : Type*)
  | session (l : Lifecycle.Label) (saves : Bool)
  | launch
  | register
  | discover
  | dispatch (message : StandardMessage) (source : A)
  | hold
  | finish
  | insert (h : InfoHash)
  | remove (h : InfoHash)
  | environment (disk : Sections)
  | unlist
  | purge (outcome : RemoveOutcome)

namespace Node

variable {A : Type*} (w : Setting) (n : Node A)

/-- Someone other than the manager holds the session. -/
def heldElsewhere : Bool :=
  decide (0 < n.handlers) || decide (n.discovery = .running) ||
    (n.session.calls.any fun c => !c.pc.over) || n.session.workers.any fun v => v.pc.serving

/-- Someone holds the session. -/
def held : Bool := n.phase.holds || n.heldElsewhere

/-- Without a holder the session is dropped, and its state with it. -/
def settle : Node A :=
  if n.held then n else { n with session := n.session.cancelInner n.session.state }

/-- A session as `TorrentSession::new` makes it, on a node with these directories. -/
def new (pieceCount : Nat) (disk : Sections) : Node A where
  session := .new pieceCount
  tables := ⟨[], fun _ => none, fun _ => none⟩
  disk := disk
  handlers := 0
  discovery := .absent
  phase := .creating

end Node

/-! ## Steps -/

/-- The directory in which a call that opens its files saves the torrent file: the files have to
open, and verifying the pieces of a seed comes later. -/
def openedAt (fs : FileSystem) (metafile : Metafile) : LastState → Option (Kind × Path)
  | .downloading _ =>
      match StateResources.download fs metafile with
      | .error _ => none
      | .ok resources => some (.downloads, resources.cache.dir)
  | .seeding path =>
      match SessionCache.new fs (.seed path metafile) with
      | none => none
      | some cache =>
          match openSeed fs cache.dir metafile with
          | .error _ => none
          | .ok _ => some (.uploads, cache.dir)

/-- The directory that the next step of a call opens. -/
def callOpensAt (w : Setting) (s : State) (k : Nat) (fs : FileSystem) : Option (Kind × Path) :=
  match s.calls[k]? with
  | none => none
  | some c =>
      match c.pc with
      | .opening metafile last => openedAt (w.anchor fs) metafile last
      | _ => none

/-- Where a step of the session writes a torrent file: an existing one is left alone. -/
def writesAt {A : Type*} (w : Setting) (n : Node A) (saves : Bool) :
    Lifecycle.Label → Option (Kind × Path)
  | .call k fs => (callOpensAt w n.session k fs).filter fun place =>
      saves && !n.disk.holdsTorrent place.2
  | _ => none

/-- The disk after a step of the session. -/
def persistTorrent {A : Type*} (w : Setting) (n : Node A) (saves : Bool) (l : Lifecycle.Label) :
    Sections :=
  match writesAt w n saves l with
  | none => n.disk
  | some (kind, path) => n.disk.writeTorrent kind path w.saved

/-- Who may ask for a transition: the constructor for its first one, and the manager for a
session that it finds in its table. Workers ask in steps of their own. -/
def mayRequest {A : Type*} (w : Setting) (n : Node A) : Transition → Bool
  | .download metafile _ => n.phase = .creating && n.session.calls.isEmpty && metafile = w.metafile
  | .seed _ metafile => n.phase = .creating && n.session.calls.isEmpty && metafile = w.metafile
  | .pause | .cancel => n.phase.isListed
  | .resume metafile => n.phase.isListed && metafile = w.metafile

/-- Whether a step of the session can be taken by someone who has the session. -/
def mayStep {A : Type*} (w : Setting) (n : Node A) : Lifecycle.Label → Bool
  | .request target => mayRequest w n target
  | _ => true

/-- A worker of a dropped session finds that out when it starts. -/
def startDropped {A : Type*} (n : Node A) : Lifecycle.Label → Option (Node A)
  | .start i =>
      match n.session.workers[i]? with
      | none => none
      | some v =>
          if v.pc = .spawned then some { n with session := n.session.setWorker i v .stopped }
          else none
  | _ => none

/-- A step of the session, together with what it writes to the cache. -/
def stepSession {A : Type*} (w : Setting) (n : Node A) (l : Lifecycle.Label) (saves : Bool) :
    Option (Node A) :=
  if n.held then
    if mayStep w n l then
      match Lifecycle.step w.sha1 w.metafile n.session (w.anchorLabel l) with
      | none => none
      | some s => some (Node.settle { n with session := s, disk := persistTorrent w n saves l })
    else none
  else startDropped n l

/-- The directory that `purge` removes: the one of an active state. -/
def purgePath : TorrentState → Option Path
  | .downloading path _ _ _ => some path
  | .seeding path _ _ => some path
  | .idle _ | .cancelled => none

/-- The disk after `purge`, whose failure is only logged. -/
def purge (disk : Sections) (state : TorrentState) (outcome : RemoveOutcome) : Sections :=
  match purgePath state with
  | none => disk
  | some path => disk.removeDirAll path outcome

/-- The transition of the constructor has succeeded. -/
def opened (s : State) : Bool :=
  match s.calls[0]? with
  | none => false
  | some c =>
      match c.pc with
      | .finished (.ok ()) => true
      | _ => false

/-- One step of the node. Other sessions have other torrents and leave the directories of this
one alone. -/
def step {A : Type*} [DecidableEq A] (w : Setting) (n : Node A) : Label A → Option (Node A)
  | .session l saves => stepSession w n l saves
  | .launch =>
      if n.phase = .creating ∧ n.discovery = .absent ∧ opened n.session then
        some { n with discovery := .spawned }
      else none
  | .register =>
      if n.phase = .creating ∧ n.discovery ≠ .absent then
        some { n with
          tables := Routing.insert n.tables w.hash
          phase := .listed n.tables.sessions.length }
      else none
  | .discover =>
      if n.discovery = .spawned then
        some { n with discovery := if n.held then .running else .ended }
      else none
  | .dispatch message source =>
      let out := Routing.dispatch n.tables message source
      some { n with
        tables := out.1
        handlers := if out.2.map Phase.listed = some n.phase then n.handlers + 1 else n.handlers }
  | .hold => if n.held then some { n with handlers := n.handlers + 1 } else none
  | .finish =>
      if 0 < n.handlers then some (Node.settle { n with handlers := n.handlers - 1 }) else none
  | .insert h =>
      if h ≠ w.hash then some { n with tables := Routing.insert n.tables h } else none
  | .remove h =>
      if h ≠ w.hash then some { n with tables := Routing.remove n.tables h } else none
  | .environment disk =>
      if disk.entries.filter (Entry.caches w.codec w.hash) =
          n.disk.entries.filter (Entry.caches w.codec w.hash) then some { n with disk := disk }
      else none
  | .unlist =>
      match n.phase with
      | .listed session =>
          some { n with tables := Routing.remove n.tables w.hash, phase := .unlisted session }
      | _ => none
  | .purge outcome =>
      match n.phase with
      | .unlisted session =>
          some (Node.settle { n with
            disk := purge n.disk n.session.state outcome
            phase := .removed session })
      | _ => none

/-! ## What a removal should achieve -/

/-- The tokens of the session are cancelled, no table refers to it, and a restart does not find
its torrent. -/
structure Final {A : Type*} (w : Setting) (n : Node A) (session : Nat) : Prop where
  state : ∀ t ∈ n.session.state.token, n.session.isCancelled t = true
  workers : ∀ v ∈ n.session.workers, n.session.isCancelled v.spawn.token = true
  byHash : ∀ h, n.tables.byHash h ≠ some session
  byPeer : ∀ a, n.tables.byPeer a ≠ some session
  cache : ∀ mode ∈ loadFromCache w.codec n.disk, mode.metafile.infoHash ≠ w.hash

/-- Once `remove` has returned the removal is final. -/
def RemovedForGood {A : Type*} (w : Setting) (n : Node A) : Prop :=
  ∀ session, n.phase = .removed session → Final w n session

/-- The state that a step puts in the place of the current one. -/
def installs (s : State) : Lifecycle.Label → Option TorrentState
  | .call k _ =>
      match s.calls[k]? with
      | none => none
      | some c =>
          match c.pc with
          | .swapping next => if s.state = .cancelled then none else some next
          | _ => none
  | _ => none

/-- When `remove` purges a session, the token of its state is cancelled already or nobody else
holds the session, and every directory that caches the torrent is the one of the state and
loses its torrent file. Afterwards no transition writes a torrent file that a restart would
find, and none puts a state with a living token into the session. -/
def Clean {A : Type*} (w : Setting) (n : Node A) : Label A → Prop
  | .purge outcome =>
      (∀ t ∈ n.session.state.token, n.session.isCancelled t = true ∨ n.heldElsewhere = false) ∧
        ∀ entry ∈ n.disk.entries, entry.caches w.codec w.hash = true →
          purgePath n.session.state = some entry.path ∧ outcome.erases = true
  | .session l saves => n.phase.isRemoved = true →
      ((writesAt w n saves l).isSome = true → w.reloads = false) ∧
        ∀ next ∈ installs n.session l, ∀ t ∈ next.token, n.session.isCancelled t = true
  | _ => True

instance Clean.decidable {A : Type*} (w : Setting) (n : Node A) :
    (a : Label A) → Decidable (Clean w n a)
  | .purge outcome => inferInstanceAs (Decidable
      ((∀ t ∈ n.session.state.token, n.session.isCancelled t = true ∨ n.heldElsewhere = false) ∧
        ∀ entry ∈ n.disk.entries, entry.caches w.codec w.hash = true →
          purgePath n.session.state = some entry.path ∧ outcome.erases = true))
  | .session l saves => inferInstanceAs (Decidable (n.phase.isRemoved = true →
      ((writesAt w n saves l).isSome = true → w.reloads = false) ∧
        ∀ next ∈ installs n.session l, ∀ t ∈ next.token, n.session.isCancelled t = true))
  | .launch | .register | .discover | .dispatch _ _ | .hold | .finish | .insert _ | .remove _
  | .environment _ | .unlist => .isTrue trivial

end Bqti.Session.Removal
