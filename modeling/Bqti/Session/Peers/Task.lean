import Bqti.Session.Peers.State

/-!
# Tasks of a session

Every packet is handled by a task of its own, every discovered peer is dialled by one, and the
workers of the session broadcast in theirs. A task is at a program point between any two
accesses to what it shares with the others, and one step of it is one such access: a lock taken
and released, one atomic flag, or one message sent.
-/

namespace Bqti.Session.Peers

open Bqti.Core Bqti.Dht Bqti.Torrent
open Bqti.Session.Routing (StandardMessage SessionManager)

variable {D P S A : Type*}

/-- The requests of one handler that have not been answered, each with the pipeline it was made
for, and the public key that their answers are checked with. -/
structure Batch where
  seeder : Bytes
  flights : List (Nat × UInt32)
  deriving DecidableEq, Repr

/-- The messages that workers broadcast when they start or end. -/
inductive Announcement
  | interested
  | notInterested
  | choke
  deriving DecidableEq, Repr

/-- The announced message. -/
def Announcement.message : Announcement → StandardMessage
  | .interested => .interested
  | .notInterested => .notInterested
  | .choke => .choke

/-- Where a task stands. A handler that is about to send names the pipeline whose flag it has
written for this message, and whether it goes on to look at the mode. -/
inductive Pc (A : Type*)
  | dialCheck
  | dialConnect
  | dialInsert
  | dialSend
  | dialRemove
  | packet (message : StandardMessage)
  | handshakeLookup (infoHash peerId : Bytes)
  | handshakeOutbound (infoHash : InfoHash) (peerId : Bytes)
  | handshakeInsert (infoHash : InfoHash) (peerId : Bytes) (outbound : Bool)
  | handshakeBits
  | bitfieldOutbound (bits : Bytes)
  | bitfieldPending (bits : Bytes) (selfInit : Bool)
  | bitfieldInsert (bits : Bytes) (selfInit : Bool) (peerId : Bytes)
  | bitfieldBits
  | bitfieldMode
  | bitfieldLookup
  | interestBits (pipe : Nat)
  | interestEval (pipe : Nat) (ourBitfield : BitField)
  | chokeLookup
  | chokePeer (pipe : Nat)
  | chokeClear (pipe : Nat)
  | chokeInterest (pipe : Nat)
  | mode (message : StandardMessage)
  | unchokeLookup
  | unchokePeer (pipe : Nat)
  | fill (pipe : Nat) (received : Option UInt32) (batch : Batch)
  | fillRead (pipe : Nat) (received : Option UInt32) (batch : Batch)
  | fillWrite (pipe : Nat) (received : Option UInt32) (wanted : List Nat) (batch : Batch)
  | waiting (batch : Batch)
  | pieceLookup (pipe : Nat) (index : UInt32) (batch : Batch)
  | pieceAdd (pipe : Nat) (index : UInt32) (batch : Batch)
  | pieceClear (pipe : Nat) (index : UInt32) (batch : Batch)
  | pieceBits (pipe : Nat) (index : UInt32) (batch : Batch)
  | haveLock (pipe : Nat) (index : UInt32) (complete : Option Bool) (batch : Batch)
  | haveSend (pipe : Nat) (index : UInt32) (complete : Option Bool) (targets : List A)
      (batch : Batch)
  | haveLookup (index : UInt32) (downloading : Bool)
  | haveSet (pipe : Nat) (index : UInt32) (downloading : Bool)
  | interestedMode
  | interestedLookup
  | interestedPeer (pipe : Nat)
  | interestedUnchoke (pipe : Nat)
  | notInterestedLookup
  | notInterestedPeer (pipe : Nat)
  | notInterestedChoke (pipe : Nat)
  | requestLookup (index : UInt32)
  | requestChoke (pipe : Nat) (index : UInt32)
  | requestHave (index : UInt32)
  | sending (message : StandardMessage) (flagOf : Option Nat) (thenMode : Bool)
  | announceLock (announcement : Announcement)
  | announceSend (announcement : Announcement) (targets : List A)
  | terminate
  | finished
  deriving DecidableEq

/-- What the environment decides about a step: whether sending, connecting or looking up the
connection works, which request is answered with which payload, and who comes next in a
broadcast. -/
inductive Choice
  | go
  | fail
  | answer (j : Nat) (payload : Option Bytes)
  | target (j : Nat) (ok : Bool)
  deriving DecidableEq

/-- The first point of the handler of a message. -/
def Pc.handle : StandardMessage → Pc A
  | .handshake infoHash peerId => .handshakeLookup infoHash peerId
  | .bitfield bits => .bitfieldOutbound bits
  | .choke => .chokeLookup
  | message => .mode message

/-- Where `handle_request` goes in a mode. -/
def Pc.inMode : ActiveMode → StandardMessage → Pc A
  | .downloading, .unchoke => .unchokeLookup
  | .downloading, .have_ index => .haveLookup index true
  | .seeding, .interested => .interestedMode
  | .seeding, .notInterested => .notInterestedLookup
  | .seeding, .request index => .requestLookup index
  | .seeding, .have_ index => .haveLookup index false
  | _, _ => .finished

/-- Where `process_piece` goes after its broadcast; `none` is a panic of `is_complete`. -/
def Pc.afterHave (pipe : Nat) (index : UInt32) (batch : Batch) : Option Bool → Pc A
  | none => .finished
  | some true => .waiting batch
  | some false => .fill pipe (some index) batch

section Act

variable [DecidableEq A]

/-- Go on with the pipeline of an address, or end. -/
def withPipeline (s : TorrentSession D A) (a : A) (next : Nat → Pc A) : TorrentSession D A × Pc A :=
  match s.getPipeline a with
  | some pipe => (s, next pipe)
  | none => (s, .finished)

/-- Write a pipeline that the task holds and go on. -/
def update (s : TorrentSession D A) (pipe : Nat) (f : Pipeline D A → Pipeline D A) (next : Pc A) :
    Option (TorrentSession D A × Pc A) :=
  (s.pipelines[pipe]?).map fun p => (s.setPipeline pipe (f p), next)

/-- One step of `add_discovered_peers` and `handshake` for one address. Time may run out at
every point but the first. -/
def actDial (host : Host D P S) (s : TorrentSession D A) (a : A) :
    Pc A → Choice → Option (TorrentSession D A × Pc A)
  | .dialCheck, .go =>
      if s.readers ≠ 0 then none
      else match s.peer a with
        | some _ => some (s, .finished)
        | none => some (s.setPeer a .connecting, .dialConnect)
  | .dialConnect, .go => some (s, .dialInsert)
  | .dialInsert, .go =>
      if s.readers ≠ 0 then none else some (s.insertPending a host.id true, .dialSend)
  | .dialSend, .go => some (s.send a (.handshake host.infoHash.asRef host.id), .finished)
  | .dialConnect, .fail | .dialInsert, .fail | .dialSend, .fail => some (s, .dialRemove)
  | .dialRemove, .go => if s.readers ≠ 0 then none else some (s.terminateWith a, .finished)
  | _, _ => none

/-- One step of the arrival of a packet. Without an authenticated connection it is dropped, and
without a session for it, or with another one, it does not come here. -/
def actPacket (host : Host D P S) (s : TorrentSession D A) (a : A) (message : StandardMessage) :
    Choice → Option (TorrentSession D A × Pc A)
  | .go =>
      let (manager, session) := Routing.dispatch s.manager message a
      some ({ s with manager := manager },
        if session = some host.session then .handle message else .finished)
  | .fail => some (s, .finished)
  | _ => none

/-- One step of `handle_handshake`. -/
def actHandshake (host : Host D P S) (s : TorrentSession D A) (a : A) :
    Pc A → Choice → Option (TorrentSession D A × Pc A)
  | .handshakeLookup infoHash peerId, .go =>
      match s.getPipeline a, InfoHash.tryFrom infoHash with
      | none, .ok h =>
          if h ≠ host.infoHash then some (s, .finished) else some (s, .handshakeOutbound h peerId)
      | _, _ => some (s, .finished)
  | .handshakeOutbound h peerId, .go =>
      some (s, .handshakeInsert h peerId (s.isPendingOutbound a))
  | .handshakeInsert h peerId outbound, .go =>
      if s.readers ≠ 0 then none
      else some ((s.insertPending a peerId outbound).record a (.greeted h peerId),
        if outbound then .handshakeBits
        else .sending (.handshake host.infoHash.asRef host.id) none false)
  | .handshakeBits, .go => some (s, .sending (.bitfield s.bitfield.bytes) none false)
  | _, _ => none

/-- One step of `handle_bitfield`. -/
def actBitfield (host : Host D P S) (s : TorrentSession D A) (a : A) :
    Pc A → Choice → Option (TorrentSession D A × Pc A)
  | .bitfieldOutbound bits, .go => some (s, .bitfieldPending bits (s.isPendingOutbound a))
  | .bitfieldPending bits selfInit, .go =>
      match s.getPendingPeer a with
      | some peerId => some (s, .bitfieldInsert bits selfInit peerId)
      | none => some (s, .finished)
  | .bitfieldInsert bits selfInit peerId, .go =>
      if s.readers ≠ 0 then none
      else
        some (s.insertPipeline host a peerId bits,
          if selfInit then .bitfieldMode else .bitfieldBits)
  | .bitfieldBits, .go => some (s, .sending (.bitfield s.bitfield.bytes) none true)
  | .bitfieldMode, .go =>
      some (s, if s.mode = .downloading then .bitfieldLookup else .finished)
  | .bitfieldLookup, .go => some (withPipeline s a .interestBits)
  | .interestBits pipe, .go => some (s, .interestEval pipe s.bitfield)
  | .interestEval pipe ourBitfield, .go =>
      (s.pipelines[pipe]?).map fun p =>
        let (interested, q) := p.evaluateInterest ourBitfield
        (s.setPipeline pipe q,
          if interested then .sending .interested (some pipe) false else .finished)
  | _, _ => none

/-- One step of the handlers of choke and unchoke and of `fill_requests`. -/
def actChoke (s : TorrentSession D A) (a : A) :
    Pc A → Choice → Option (TorrentSession D A × Pc A)
  | .chokeLookup, .go => some (withPipeline s a .chokePeer)
  | .chokePeer pipe, .go =>
      update s pipe (fun p => { p with peerChoking := true }) (.chokeClear pipe)
  | .chokeClear pipe, .go => update s pipe (fun p => { p with pending := ∅ }) (.chokeInterest pipe)
  | .chokeInterest pipe, .go => update s pipe (fun p => { p with amInterested := false }) .finished
  | .unchokeLookup, .go => some (withPipeline s a .unchokePeer)
  | .unchokePeer pipe, .go =>
      (s.pipelines[pipe]?).map fun p =>
        (s.setPipeline pipe p.onUnchoke, .fill pipe none ⟨p.peer.id.pubKey, []⟩)
  | .fill pipe received batch, .go =>
      (s.pipelines[pipe]?).map fun p =>
        (s, if p.peerChoking then .waiting batch else .fillRead pipe received batch)
  | .fillRead pipe received batch, .go =>
      (s.pipelines[pipe]?).map fun p =>
        (s, .fillWrite pipe received (p.bitfield.difference s.bitfield) batch)
  | .fillWrite pipe received wanted batch, .go =>
      (s.pipelines[pipe]?).map fun p =>
        let (pending, requests) := fillRequests p.pending received wanted
        (s.setPipeline pipe { p with pending := pending },
          .waiting { batch with flights := batch.flights ++ requests.map fun i => (pipe, i) })
  | _, _ => none

/-- One step of the loop over the requests of a handler and of `process_piece`. What happens to
the data of a piece is left to the downloader. -/
def actPiece (host : Host D P S) (s : TorrentSession D A) (a : A) :
    Pc A → Choice → Option (TorrentSession D A × Pc A)
  | .waiting batch, .answer j payload =>
      match batch.flights[j]? with
      | none => none
      | some (pipe, index) =>
          let rest := { batch with flights := batch.flights.eraseIdx j }
          match makeRequest host.crypto index batch.seeder payload with
          | none => some (s, .waiting rest)
          | some _ => some (s, .pieceLookup pipe index rest)
  | .waiting batch, .go => if batch.flights = [] then some (s, .finished) else none
  | .pieceLookup _ index batch, .go =>
      match s.getPipeline a with
      | none => some (s, .waiting batch)
      | some pipe => some (s, .pieceAdd pipe index batch)
  | .pieceAdd pipe index batch, .go =>
      match s.addPiece index with
      | none => some (s, .finished)
      | some (false, _) => some (s, .fill pipe none batch)
      | some (true, s') => some (s', .pieceClear pipe index batch)
  | .pieceClear pipe index batch, .go =>
      update s pipe (fun p => p.clearPiece index) (.pieceBits pipe index batch)
  | .pieceBits pipe index batch, .go => some (s, .haveLock pipe index s.bitfield.isComplete batch)
  | .haveLock pipe index complete batch, .go =>
      some (s.lock, .haveSend pipe index complete s.activePeers batch)
  | .haveSend pipe index complete targets batch, .target j ok =>
      match targets[j]? with
      | none => none
      | some b => some (if ok then s.send b (.have_ index) else s,
          .haveSend pipe index complete (targets.eraseIdx j) batch)
  | .haveSend pipe index complete [] batch, .go =>
      some (s.unlock, .afterHave pipe index batch complete)
  | _, _ => none

/-- One step of the handlers of the other messages. -/
def actMode (s : TorrentSession D A) (a : A) :
    Pc A → Choice → Option (TorrentSession D A × Pc A)
  | .mode message, .go => some (s, .inMode s.mode message)
  | .haveLookup index downloading, .go =>
      some (withPipeline s a fun pipe => .haveSet pipe index downloading)
  | .haveSet pipe index downloading, .go =>
      match s.pipelines[pipe]? with
      | none => none
      | some p =>
          match p.setBitfield index.toNat with
          | none => some (s, .finished)
          | some q =>
              some (s.setPipeline pipe q, if downloading then .interestBits pipe else .finished)
  | .interestedMode, .go =>
      some (s, if s.mode = .seeding then .interestedLookup else .finished)
  | .interestedLookup, .go => some (withPipeline s a .interestedPeer)
  | .interestedPeer pipe, .go => update s pipe .onPeerInterested (.interestedUnchoke pipe)
  | .interestedUnchoke pipe, .go => update s pipe .unchoke (.sending .unchoke (some pipe) false)
  | .notInterestedLookup, .go =>
      match s.getPipeline a with
      | some pipe => some (s, .notInterestedPeer pipe)
      | none => some (s, .sending .choke none false)
  | .notInterestedPeer pipe, .go => update s pipe .onPeerNotInterested (.notInterestedChoke pipe)
  | .notInterestedChoke pipe, .go => update s pipe .choke (.sending .choke (some pipe) false)
  | .requestLookup index, .go => some (withPipeline s a fun pipe => .requestChoke pipe index)
  | .requestChoke pipe index, .go =>
      (s.pipelines[pipe]?).map fun p =>
        (s, if p.amChoking then .finished else .requestHave index)
  | .requestHave index, .go =>
      if s.bitfield.haveBit index.toNat = some true then some (s.record a (.asked index), .finished)
      else some (s, .finished)
  | _, _ => none

/-- One step of sending: a handler ends its session with a peer that it cannot reach, and a
broadcast goes on to the next one. -/
def actSend (s : TorrentSession D A) (a : A) :
    Pc A → Choice → Option (TorrentSession D A × Pc A)
  | .sending message _ thenMode, .go =>
      some (s.send a message, if thenMode then .bitfieldMode else .finished)
  | .sending _ _ _, .fail => some (s, .terminate)
  | .terminate, .go => if s.readers ≠ 0 then none else some (s.terminateWith a, .finished)
  | .announceLock announcement, .go => some (s.lock, .announceSend announcement s.activePeers)
  | .announceSend announcement targets, .target j ok =>
      match targets[j]? with
      | none => none
      | some b => some (if ok then s.send b announcement.message else s,
          .announceSend announcement (targets.eraseIdx j))
  | .announceSend _ [], .go => some (s.unlock, .finished)
  | _, _ => none

/-- One step of a task. -/
def act (host : Host D P S) (s : TorrentSession D A) (a : A) (pc : Pc A) (choice : Choice) :
    Option (TorrentSession D A × Pc A) :=
  match pc with
  | .dialCheck | .dialConnect | .dialInsert | .dialSend | .dialRemove =>
      actDial host s a pc choice
  | .packet message => actPacket host s a message choice
  | .handshakeLookup _ _ | .handshakeOutbound _ _ | .handshakeInsert _ _ _ | .handshakeBits =>
      actHandshake host s a pc choice
  | .bitfieldOutbound _ | .bitfieldPending _ _ | .bitfieldInsert _ _ _ | .bitfieldBits
  | .bitfieldMode | .bitfieldLookup | .interestBits _ | .interestEval _ _ =>
      actBitfield host s a pc choice
  | .chokeLookup | .chokePeer _ | .chokeClear _ | .chokeInterest _ | .unchokeLookup
  | .unchokePeer _ | .fill _ _ _ | .fillRead _ _ _ | .fillWrite _ _ _ _ =>
      actChoke s a pc choice
  | .waiting _ | .pieceLookup _ _ _ | .pieceAdd _ _ _ | .pieceClear _ _ _ | .pieceBits _ _ _
  | .haveLock _ _ _ _ | .haveSend _ _ _ _ _ => actPiece host s a pc choice
  | .mode _ | .haveLookup _ _ | .haveSet _ _ _ | .interestedMode | .interestedLookup
  | .interestedPeer _ | .interestedUnchoke _ | .notInterestedLookup | .notInterestedPeer _
  | .notInterestedChoke _ | .requestLookup _ | .requestChoke _ _ | .requestHave _ =>
      actMode s a pc choice
  | .sending _ _ _ | .announceLock _ | .announceSend _ _ | .terminate => actSend s a pc choice
  | .finished => none

end Act

end Bqti.Session.Peers
