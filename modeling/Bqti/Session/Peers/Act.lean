import Bqti.Session.Peers.Task

/-!
# What a task can do

The steps of a task, grouped by what they do to the session. All that only look something up
are one case, which says what such a step keeps: the requests in flight, the pipeline it holds
and the handshake it has checked.
-/

namespace Bqti.Session.Peers

open Bqti.Core Bqti.Dht Bqti.Torrent
open Bqti.Session.Routing (StandardMessage SessionManager)

variable {D P S A : Type*}

namespace Pc

/-- The requests in flight. A request is in flight for the pipeline it was made for until it is
answered, and from then on for the pipeline that `process_piece` found. -/
def flights : Pc A → List (Nat × UInt32)
  | .fill _ _ batch | .fillRead _ _ batch | .fillWrite _ _ _ batch | .waiting batch
  | .pieceBits _ _ batch | .haveLock _ _ _ batch | .haveSend _ _ _ _ batch => batch.flights
  | .pieceLookup pipe index batch | .pieceAdd pipe index batch | .pieceClear pipe index batch =>
      (pipe, index) :: batch.flights
  | _ => []

/-- The pipeline that the task has looked up. -/
def pipe : Pc A → Option Nat
  | .interestBits pipe | .interestEval pipe _ | .chokePeer pipe | .chokeClear pipe
  | .chokeInterest pipe | .unchokePeer pipe | .fill pipe _ _ | .fillRead pipe _ _
  | .fillWrite pipe _ _ _ | .pieceAdd pipe _ _ | .pieceClear pipe _ _ | .pieceBits pipe _ _
  | .haveLock pipe _ _ _ | .haveSend pipe _ _ _ _ | .haveSet pipe _ _ | .interestedPeer pipe
  | .interestedUnchoke pipe | .notInterestedPeer pipe | .notInterestedChoke pipe
  | .requestChoke pipe _ => some pipe
  | .sending _ flagOf _ => flagOf
  | _ => none

/-- The message that is to be sent for a flag that has been written, with the pipeline. -/
def flagged : Pc A → Option (Nat × StandardMessage)
  | .sending message (some pipe) _ => some (pipe, message)
  | _ => none

/-- The torrent of a handshake that has passed its check. -/
def greeting : Pc A → Option InfoHash
  | .handshakeOutbound infoHash _ | .handshakeInsert infoHash _ _ => some infoHash
  | _ => none

end Pc

/-- A handler starts without a pipeline, a flag or a checked handshake. -/
theorem Pc.handle_empty (message : StandardMessage) : (Pc.handle message : Pc A).pipe = none ∧
    (Pc.handle message : Pc A).flagged = none ∧ (Pc.handle message : Pc A).greeting = none := by
  cases message <;> exact ⟨rfl, rfl, rfl⟩

/-- What comes after the broadcast of a piece. -/
theorem Pc.afterHave_cases (pipe : Nat) (index : UInt32) (batch : Batch) (complete : Option Bool) :
    (Pc.afterHave pipe index batch complete : Pc A) = .finished ∨
      (Pc.afterHave pipe index batch complete : Pc A) = .waiting batch ∨
      (Pc.afterHave pipe index batch complete : Pc A) = .fill pipe (some index) batch := by
  rcases complete with _ | _ | _
  · exact Or.inl rfl
  · exact Or.inr (Or.inr rfl)
  · exact Or.inr (Or.inl rfl)

/-- What a step that changes nothing shared keeps. -/
structure Reads [DecidableEq A] (host : Host D P S) (s : TorrentSession D A) (a : A)
    (pc pc' : Pc A) : Prop where
  flights : pc'.flights = pc.flights
  pipe : ∀ i, pc'.pipe = some i → pc.pipe = some i ∨ s.peer a = some (.active i)
  notFlagged : pc.flagged = none
  flagged : pc'.flagged = none
  greeting : ∀ h, pc'.greeting = some h → pc.greeting = some h ∨ h = host.infoHash
  stays : pc ≠ .terminate ∧ pc' ≠ .terminate

/-- What a step of a task can do. -/
inductive Act [DecidableEq A] (host : Host D P S) (s : TorrentSession D A) (a : A) :
    Pc A → Choice → TorrentSession D A → Pc A → Prop
  | read {pc pc' : Pc A} {choice : Choice} (h : Reads host s a pc pc') :
      Act host s a pc choice s pc'
  | connecting (h : s.peer a = none) :
      Act host s a .dialCheck .go (s.setPeer a .connecting) .dialConnect
  | dialled : Act host s a .dialInsert .go (s.insertPending a host.id true) .dialSend
  | dialSent :
      Act host s a .dialSend .go (s.send a (.handshake host.infoHash.asRef host.id)) .finished
  | removed {pc : Pc A} (h : pc = .dialRemove ∨ pc = .terminate) :
      Act host s a pc .go (s.terminateWith a) .finished
  | routed {message : StandardMessage} {pc : Pc A}
      (h : pc = .handle message ∧
        (Routing.dispatch s.manager message a).2 = some host.session ∨ pc = .finished) :
      Act host s a (.packet message) .go
        { s with manager := (Routing.dispatch s.manager message a).1 } pc
  | greeted {infoHash : InfoHash} {peerId : Bytes} {outbound : Bool} :
      Act host s a (.handshakeInsert infoHash peerId outbound) .go
        ((s.insertPending a peerId outbound).record a (.greeted infoHash peerId))
        (if outbound then .handshakeBits
          else .sending (.handshake host.infoHash.asRef host.id) none false)
  | opened {bits peerId : Bytes} {selfInit : Bool} :
      Act host s a (.bitfieldInsert bits selfInit peerId) .go (s.insertPipeline host a peerId bits)
        (if selfInit then .bitfieldMode else .bitfieldBits)
  | evaluated {pipe : Nat} {p : Pipeline D A} {ourBitfield : BitField}
      (hp : s.pipelines[pipe]? = some p) :
      Act host s a (.interestEval pipe ourBitfield) .go
        (s.setPipeline pipe (p.evaluateInterest ourBitfield).2)
        (if (p.evaluateInterest ourBitfield).1 then .sending .interested (some pipe) false
          else .finished)
  | touched {pc pc' : Pc A} {pipe : Nat} {p q : Pipeline D A} (hp : s.pipelines[pipe]? = some p)
      (hpc : pc.pipe = some pipe) (h : Reads host s a pc pc')
      (hq : q.peer = p.peer ∧ q.amChoking = p.amChoking ∧ q.amInterested = p.amInterested ∧
        q.pending = p.pending) :
      Act host s a pc .go (s.setPipeline pipe q) pc'
  | emptied {pipe : Nat} {p : Pipeline D A} (hp : s.pipelines[pipe]? = some p) :
      Act host s a (.chokeClear pipe) .go (s.setPipeline pipe { p with pending := ∅ })
        (.chokeInterest pipe)
  | uninterested {pipe : Nat} {p : Pipeline D A} (hp : s.pipelines[pipe]? = some p) :
      Act host s a (.chokeInterest pipe) .go (s.setPipeline pipe { p with amInterested := false })
        .finished
  | unchoked {pipe : Nat} {p : Pipeline D A} (hp : s.pipelines[pipe]? = some p) :
      Act host s a (.interestedUnchoke pipe) .go (s.setPipeline pipe p.unchoke)
        (.sending .unchoke (some pipe) false)
  | choked {pipe : Nat} {p : Pipeline D A} (hp : s.pipelines[pipe]? = some p) :
      Act host s a (.notInterestedChoke pipe) .go (s.setPipeline pipe p.choke)
        (.sending .choke (some pipe) false)
  | filled {pipe : Nat} {p : Pipeline D A} {received : Option UInt32} {wanted : List Nat}
      {batch : Batch} (hp : s.pipelines[pipe]? = some p) :
      Act host s a (.fillWrite pipe received wanted batch) .go
        (s.setPipeline pipe { p with pending := (fillRequests p.pending received wanted).1 })
        (.waiting { batch with
          flights := batch.flights ++
            (fillRequests p.pending received wanted).2.map fun i => (pipe, i) })
  | rejected {batch : Batch} {j : Nat} {payload : Option Bytes} {pipe : Nat} {index : UInt32}
      (hj : batch.flights[j]? = some (pipe, index))
      (hpayload : makeRequest host.crypto index batch.seeder payload = none) :
      Act host s a (.waiting batch) (.answer j payload) s
        (.waiting { batch with flights := batch.flights.eraseIdx j })
  | answered {batch : Batch} {j : Nat} {payload : Option Bytes} {pipe : Nat} {index : UInt32}
      (hj : batch.flights[j]? = some (pipe, index)) :
      Act host s a (.waiting batch) (.answer j payload) s
        (.pieceLookup pipe index { batch with flights := batch.flights.eraseIdx j })
  | orphaned {pipe : Nat} {index : UInt32} {batch : Batch} (h : s.getPipeline a = none) :
      Act host s a (.pieceLookup pipe index batch) .go s (.waiting batch)
  | adopted {pipe pipe' : Nat} {index : UInt32} {batch : Batch}
      (h : s.getPipeline a = some pipe') :
      Act host s a (.pieceLookup pipe index batch) .go s (.pieceAdd pipe' index batch)
  | panicked {pipe : Nat} {index : UInt32} {batch : Batch} (h : s.addPiece index = none) :
      Act host s a (.pieceAdd pipe index batch) .go s .finished
  | repeated {pipe : Nat} {index : UInt32} {batch : Batch}
      (h : ∃ s', s.addPiece index = some (false, s')) :
      Act host s a (.pieceAdd pipe index batch) .go s (.fill pipe none batch)
  | added {pipe : Nat} {index : UInt32} {batch : Batch} {bitfield : BitField}
      (h : s.addPiece index = some (true, { s with bitfield := bitfield })) :
      Act host s a (.pieceAdd pipe index batch) .go { s with bitfield := bitfield }
        (.pieceClear pipe index batch)
  | cleared {pipe : Nat} {index : UInt32} {batch : Batch} {p : Pipeline D A}
      (hp : s.pipelines[pipe]? = some p) :
      Act host s a (.pieceClear pipe index batch) .go (s.setPipeline pipe (p.clearPiece index))
        (.pieceBits pipe index batch)
  | haveLocked {pipe : Nat} {index : UInt32} {complete : Option Bool} {batch : Batch} :
      Act host s a (.haveLock pipe index complete batch) .go s.lock
        (.haveSend pipe index complete s.activePeers batch)
  | haveSent {pipe j : Nat} {index : UInt32} {complete : Option Bool} {targets : List A}
      {batch : Batch} {b : A} (hj : targets[j]? = some b) :
      Act host s a (.haveSend pipe index complete targets batch) (.target j true)
        (s.send b (.have_ index)) (.haveSend pipe index complete (targets.eraseIdx j) batch)
  | haveUnlocked {pipe : Nat} {index : UInt32} {complete : Option Bool} {batch : Batch} :
      Act host s a (.haveSend pipe index complete [] batch) .go s.unlock
        (.afterHave pipe index batch complete)
  | asked {index : UInt32} :
      Act host s a (.requestHave index) .go (s.record a (.asked index)) .finished
  | sent {message : StandardMessage} {flagOf : Option Nat} {thenMode : Bool} :
      Act host s a (.sending message flagOf thenMode) .go (s.send a message)
        (if thenMode then .bitfieldMode else .finished)
  | lost {message : StandardMessage} {flagOf : Option Nat} {thenMode : Bool} :
      Act host s a (.sending message flagOf thenMode) .fail s .terminate
  | announceLocked {announcement : Announcement} :
      Act host s a (.announceLock announcement) .go s.lock
        (.announceSend announcement s.activePeers)
  | announced {announcement : Announcement} {targets : List A} {j : Nat} {b : A}
      (hj : targets[j]? = some b) :
      Act host s a (.announceSend announcement targets) (.target j true)
        (s.send b announcement.message) (.announceSend announcement (targets.eraseIdx j))
  | announceUnlocked {announcement : Announcement} :
      Act host s a (.announceSend announcement []) .go s.unlock .finished

section Cases

variable [DecidableEq A] {host : Host D P S} {s s' : TorrentSession D A} {a : A} {pc pc' : Pc A}
  {choice : Choice}

/-- A read that leads to a position without a greeting, and without a pipeline or with the same. -/
theorem Act.plain (hflights : pc'.flights = pc.flights)
    (hpipe : pc'.pipe = none ∨ pc'.pipe = pc.pipe)
    (hnot : pc.flagged = none) (hflagged : pc'.flagged = none) (hgreeting : pc'.greeting = none)
    (hpc : pc ≠ .terminate) (hpc' : pc' ≠ .terminate) : Act host s a pc choice s pc' := by
  refine .read ⟨hflights, fun i hi => ?_, hnot, hflagged, fun k hk => ?_, hpc, hpc'⟩
  · rcases hpipe with hnone | hsame
    · rw [hnone] at hi
      cases hi
    · exact Or.inl (hsame ▸ hi)
  · rw [hgreeting] at hk
    cases hk

/-- What a dial may do. -/
theorem actDial_cases (h : actDial host s a pc choice = some (s', pc')) :
    Act host s a pc choice s' pc' := by
  unfold actDial at h
  split at h
  case h_1 =>
    split at h
    · contradiction
    · split at h
      · cases h
        exact .plain rfl (Or.inl rfl) rfl rfl rfl (by simp) (by simp)
      · cases h
        exact .connecting ‹_›
  case h_2 =>
    cases h
    exact .plain rfl (Or.inl rfl) rfl rfl rfl (by simp) (by simp)
  case h_3 =>
    split at h
    · contradiction
    · cases h
      exact .dialled
  case h_4 =>
    cases h
    exact .dialSent
  case h_5 | h_6 | h_7 =>
    cases h
    exact .plain rfl (Or.inl rfl) rfl rfl rfl (by simp) (by simp)
  case h_8 =>
    split at h
    · contradiction
    · cases h
      exact .removed (Or.inl rfl)
  case h_9 => contradiction

/-- What a packet may start. -/
theorem actPacket_cases {message : StandardMessage}
    (h : actPacket host s a message choice = some (s', pc')) :
    Act host s a (.packet message) choice s' pc' := by
  unfold actPacket at h
  split at h
  case h_1 =>
    obtain ⟨rfl, rfl⟩ := Prod.mk.inj (Option.some.inj h)
    refine .routed ?_
    by_cases hsession : (Routing.dispatch s.manager message a).2 = some host.session
    · exact Or.inl ⟨if_pos hsession, hsession⟩
    · exact Or.inr (if_neg hsession)
  case h_2 =>
    cases h
    exact .plain rfl (Or.inl rfl) rfl rfl rfl (by simp) (by simp)
  case h_3 => contradiction

/-- What the handler of a handshake may do. -/
theorem actHandshake_cases (h : actHandshake host s a pc choice = some (s', pc')) :
    Act host s a pc choice s' pc' := by
  unfold actHandshake at h
  split at h
  case h_1 =>
    split at h
    · split at h
      · cases h
        exact .plain rfl (Or.inl rfl) rfl rfl rfl (by simp) (by simp)
      · rename_i hsame
        cases h
        refine .read ⟨rfl, nofun, rfl, rfl, ?_, nofun, nofun⟩
        rintro h' ⟨rfl⟩
        exact Or.inr (not_not.mp hsame)
    · cases h
      exact .plain rfl (Or.inl rfl) rfl rfl rfl (by simp) (by simp)
  case h_2 =>
    cases h
    refine .read ⟨rfl, nofun, rfl, rfl, ?_, nofun, nofun⟩
    rintro h' ⟨rfl⟩
    exact Or.inl rfl
  case h_3 =>
    split at h
    · contradiction
    · cases h
      exact .greeted
  case h_4 =>
    cases h
    exact .plain rfl (Or.inl rfl) rfl rfl rfl (by simp) (by simp)
  case h_5 => contradiction

/-- Looking up the pipeline of an address gives the active one. -/
theorem withPipeline_cases {next : Nat → Pc A} (h : withPipeline s a next = (s', pc')) :
    s' = s ∧ ((∃ pipe, s.peer a = some (.active pipe) ∧ pc' = next pipe) ∨ pc' = .finished) := by
  unfold withPipeline at h
  split at h
  · rename_i pipe hpipe
    cases h
    exact ⟨rfl, Or.inl ⟨pipe, TorrentSession.getPipeline_eq_some.mp hpipe, rfl⟩⟩
  · cases h
    exact ⟨rfl, Or.inr rfl⟩

/-- A lookup of the pipeline is a read. -/
theorem act_withPipeline {next : Nat → Pc A}
    (h : some (withPipeline s a next) = some (s', pc'))
    (hpc : pc.flights = [] ∧ pc.flagged = none ∧ pc ≠ .terminate)
    (hnext : ∀ i, (next i).flights = [] ∧ (next i).pipe = some i ∧ (next i).flagged = none ∧
      (next i).greeting = none ∧ next i ≠ .terminate) : Act host s a pc choice s' pc' := by
  obtain ⟨rfl, ⟨pipe, hactive, rfl⟩ | rfl⟩ := withPipeline_cases (Option.some.inj h)
  · obtain ⟨h1, h2, h3, h4, h5⟩ := hnext pipe
    refine .read ⟨h1.trans hpc.1.symm, fun i hi => ?_, hpc.2.1, h3, fun k hk => ?_, hpc.2.2, h5⟩
    · rw [h2] at hi
      cases hi
      exact Or.inr hactive
    · rw [h4] at hk
      contradiction
  · exact .read ⟨hpc.1.symm, nofun, hpc.2.1, rfl, nofun, hpc.2.2, nofun⟩

omit [DecidableEq A] in
/-- Writing a pipeline needs one. -/
theorem update_cases {pipe : Nat} {f : Pipeline D A → Pipeline D A} {next : Pc A}
    (h : update s pipe f next = some (s', pc')) :
    ∃ p, s.pipelines[pipe]? = some p ∧ s' = s.setPipeline pipe (f p) ∧ pc' = next := by
  obtain ⟨p, hp, he⟩ := Option.map_eq_some_iff.mp h
  cases he
  exact ⟨p, hp, rfl, rfl⟩

/-- What the handler of a bit field may do. -/
theorem actBitfield_cases (h : actBitfield host s a pc choice = some (s', pc')) :
    Act host s a pc choice s' pc' := by
  unfold actBitfield at h
  split at h
  case h_1 =>
    cases h
    exact .plain rfl (Or.inl rfl) rfl rfl rfl (by simp) (by simp)
  case h_2 =>
    split at h <;> cases h <;> exact .plain rfl (Or.inl rfl) rfl rfl rfl (by simp) (by simp)
  case h_3 =>
    split at h
    · contradiction
    · cases h
      exact .opened
  case h_4 =>
    cases h
    exact .plain rfl (Or.inl rfl) rfl rfl rfl (by simp) (by simp)
  case h_5 =>
    cases h
    split <;> exact .plain rfl (Or.inl rfl) rfl rfl rfl (by simp) (by simp)
  case h_6 =>
    exact act_withPipeline h ⟨rfl, rfl, nofun⟩ fun _ => ⟨rfl, rfl, rfl, rfl, nofun⟩
  case h_7 =>
    cases h
    exact .plain rfl (Or.inr rfl) rfl rfl rfl (by simp) (by simp)
  case h_8 =>
    obtain ⟨p, hp, he⟩ := Option.map_eq_some_iff.mp h
    cases he
    exact .evaluated hp
  case h_9 => contradiction

/-- What the handlers of choking and interest may do. -/
theorem actChoke_cases (h : actChoke s a pc choice = some (s', pc')) :
    Act host s a pc choice s' pc' := by
  unfold actChoke at h
  split at h
  case h_1 | h_5 =>
    exact act_withPipeline h ⟨rfl, rfl, nofun⟩ fun _ => ⟨rfl, rfl, rfl, rfl, nofun⟩
  case h_2 =>
    obtain ⟨p, hp, rfl, rfl⟩ := update_cases h
    exact .touched hp rfl ⟨rfl, fun _ hi => Or.inl hi, rfl, rfl, nofun, nofun, nofun⟩
      ⟨rfl, rfl, rfl, rfl⟩
  case h_3 =>
    obtain ⟨p, hp, rfl, rfl⟩ := update_cases h
    exact .emptied hp
  case h_4 =>
    obtain ⟨p, hp, rfl, rfl⟩ := update_cases h
    exact .uninterested hp
  case h_6 =>
    obtain ⟨p, hp, he⟩ := Option.map_eq_some_iff.mp h
    cases he
    exact .touched hp rfl ⟨rfl, fun _ hi => Or.inl hi, rfl, rfl, nofun, nofun, nofun⟩
      ⟨rfl, rfl, rfl, rfl⟩
  case h_7 =>
    obtain ⟨p, hp, he⟩ := Option.map_eq_some_iff.mp h
    cases he
    split
    · exact .plain rfl (Or.inl rfl) rfl rfl rfl (by simp) (by simp)
    · exact .plain rfl (Or.inr rfl) rfl rfl rfl (by simp) (by simp)
  case h_8 =>
    obtain ⟨p, hp, he⟩ := Option.map_eq_some_iff.mp h
    cases he
    exact .plain rfl (Or.inr rfl) rfl rfl rfl (by simp) (by simp)
  case h_9 =>
    obtain ⟨p, hp, he⟩ := Option.map_eq_some_iff.mp h
    cases he
    exact .filled hp
  case h_10 => contradiction

/-- What the handlers of pieces may do. -/
theorem actPiece_cases (h : actPiece host s a pc choice = some (s', pc')) :
    Act host s a pc choice s' pc' := by
  unfold actPiece at h
  split at h
  case h_1 =>
    split at h
    · contradiction
    · rename_i hj
      dsimp only at h
      split at h
      · rename_i hpayload
        cases h
        exact .rejected hj hpayload
      · cases h
        exact .answered hj
  case h_2 =>
    split at h
    · rename_i hempty
      cases h
      exact .read ⟨hempty.symm, nofun, rfl, rfl, nofun, nofun, nofun⟩
    · contradiction
  case h_3 =>
    split at h
    · cases h
      exact .orphaned ‹_›
    · cases h
      exact .adopted ‹_›
  case h_4 =>
    split at h
    · cases h
      exact .panicked ‹_›
    · cases h
      exact .repeated ⟨_, ‹_›⟩
    · rename_i u hadd
      cases h
      obtain ⟨bitfield, rfl⟩ := TorrentSession.addPiece_eq_some hadd
      exact .added hadd
  case h_5 =>
    obtain ⟨p, hp, rfl, rfl⟩ := update_cases h
    exact .cleared hp
  case h_6 =>
    cases h
    exact .plain rfl (Or.inr rfl) rfl rfl rfl (by simp) (by simp)
  case h_7 =>
    cases h
    exact .haveLocked
  case h_8 =>
    split at h
    · contradiction
    · rename_i ok _ b hj
      cases h
      cases ok with
      | true => exact .haveSent hj
      | false => exact .plain rfl (Or.inr rfl) rfl rfl rfl (by simp) (by simp)
  case h_9 =>
    cases h
    exact .haveUnlocked
  case h_10 => contradiction

/-- No message leads straight to a flag, to a handshake or to the end of a peer. -/
theorem reads_inMode (message : StandardMessage) :
    Reads host s a (.mode message) (.inMode s.mode message) := by
  cases s.mode <;> cases message <;> exact ⟨rfl, nofun, rfl, rfl, nofun, nofun, nofun⟩

/-- What a change of mode may do. -/
theorem actMode_cases (h : actMode s a pc choice = some (s', pc')) :
    Act host s a pc choice s' pc' := by
  unfold actMode at h
  split at h
  case h_1 =>
    cases h
    exact .read (reads_inMode _)
  case h_2 | h_5 | h_11 =>
    exact act_withPipeline h ⟨rfl, rfl, nofun⟩ fun _ => ⟨rfl, rfl, rfl, rfl, nofun⟩
  case h_3 =>
    split at h
    · contradiction
    · rename_i p hp
      split at h
      · cases h
        exact .plain rfl (Or.inl rfl) rfl rfl rfl (by simp) (by simp)
      · rename_i q hq
        cases h
        obtain ⟨bitfield, _, rfl⟩ := Option.map_eq_some_iff.mp hq
        refine .touched hp rfl ?_ ⟨rfl, rfl, rfl, rfl⟩
        split
        · exact ⟨rfl, fun _ hi => Or.inl hi, rfl, rfl, nofun, nofun, nofun⟩
        · exact ⟨rfl, nofun, rfl, rfl, nofun, nofun, nofun⟩
  case h_4 =>
    cases h
    split <;> exact .plain rfl (Or.inl rfl) rfl rfl rfl (by simp) (by simp)
  case h_6 | h_9 =>
    obtain ⟨p, hp, rfl, rfl⟩ := update_cases h
    exact .touched hp rfl ⟨rfl, fun _ hi => Or.inl hi, rfl, rfl, nofun, nofun, nofun⟩
      ⟨rfl, rfl, rfl, rfl⟩
  case h_7 =>
    obtain ⟨p, hp, rfl, rfl⟩ := update_cases h
    exact .unchoked hp
  case h_8 =>
    split at h
    · rename_i pipe hpipe
      cases h
      refine .read ⟨rfl, ?_, rfl, rfl, nofun, nofun, nofun⟩
      rintro i ⟨rfl⟩
      exact Or.inr (TorrentSession.getPipeline_eq_some.mp hpipe)
    · cases h
      exact .plain rfl (Or.inl rfl) rfl rfl rfl (by simp) (by simp)
  case h_10 =>
    obtain ⟨p, hp, rfl, rfl⟩ := update_cases h
    exact .choked hp
  case h_12 =>
    obtain ⟨p, hp, he⟩ := Option.map_eq_some_iff.mp h
    cases he
    split <;> exact .plain rfl (Or.inl rfl) rfl rfl rfl (by simp) (by simp)
  case h_13 =>
    split at h
    · cases h
      exact .asked
    · cases h
      exact .plain rfl (Or.inl rfl) rfl rfl rfl (by simp) (by simp)
  case h_14 => contradiction

/-- What a message that is sent may do. -/
theorem actSend_cases (h : actSend s a pc choice = some (s', pc')) :
    Act host s a pc choice s' pc' := by
  unfold actSend at h
  split at h
  case h_1 =>
    cases h
    exact .sent
  case h_2 =>
    cases h
    exact .lost
  case h_3 =>
    split at h
    · contradiction
    · cases h
      exact .removed (Or.inr rfl)
  case h_4 =>
    cases h
    exact .announceLocked
  case h_5 =>
    split at h
    · contradiction
    · rename_i ok _ b hj
      cases h
      cases ok with
      | true => exact .announced hj
      | false => exact .plain rfl (Or.inl rfl) rfl rfl rfl (by simp) (by simp)
  case h_6 =>
    cases h
    exact .announceUnlocked
  case h_7 => contradiction

/-- Every step of a task is one of these. -/
theorem act_cases (h : act host s a pc choice = some (s', pc')) :
    Act host s a pc choice s' pc' := by
  unfold act at h
  split at h
  all_goals first
    | exact actDial_cases h
    | exact actPacket_cases h
    | exact actHandshake_cases h
    | exact actBitfield_cases h
    | exact actChoke_cases h
    | exact actPiece_cases h
    | exact actMode_cases h
    | exact actSend_cases h

/-! ## Entries and pipelines across a step -/

/-- An event that comes without a change of the entry. -/
def Event.isNote : Event → Bool
  | .sent _ | .asked _ => true
  | .greeted _ _ | .opened | .gone => false

/-- What a step of a task can write into the entry of its address. -/
inductive Writes (host : Host D P S) (s : TorrentSession D A) (a : A) (pc : Pc A)
    (s' : TorrentSession D A) : Prop
  | connecting (hpc : pc = .dialCheck) (h : s.peer a = none) (hpeer : s'.peer a = some .connecting)
      (hhistory : s'.history a = s.history a)
  | dialled (hpc : pc = .dialInsert) (hpeer : s'.peer a = some (.pending host.id true))
      (hhistory : s'.history a = s.history a)
  | greeted {infoHash : InfoHash} {peerId : Bytes} {outbound : Bool}
      (hpc : pc = .handshakeInsert infoHash peerId outbound)
      (hpeer : s'.peer a = some (.pending peerId outbound))
      (hhistory : s'.history a = .greeted infoHash peerId :: s.history a)
  | opened {bits peerId : Bytes} {selfInit : Bool}
      (hpc : pc = .bitfieldInsert bits selfInit peerId)
      (hpeer : s'.peer a = some (.active s.pipelines.length))
      (hhistory : s'.history a = .opened :: s.history a)
      (hpipelines : s'.pipelines = s.pipelines ++
        [.new ⟨Key.new host.crypto peerId, a⟩ (.fromWire bits host.pieceCount)])
  | removed (hpeer : s'.peer a = none)

/-- The entry of an address stays, or a task of that address writes it. -/
theorem Act.entry_cases (h : Act host s a pc choice s' pc') (b : A) :
    (s'.peer b = s.peer b ∧
      (s'.history b = s.history b ∨ ∃ e, e.isNote = true ∧ s'.history b = e :: s.history b)) ∨
      (b = a ∧ Writes host s a pc s') := by
  have hsend : ∀ (c : A) (message : StandardMessage), (s.send c message).history b = s.history b ∨
      ∃ e, e.isNote = true ∧ (s.send c message).history b = e :: s.history b := by
    intro c message
    by_cases hb : b = c
    · subst hb
      exact Or.inr ⟨.sent message, rfl, by simp⟩
    · exact Or.inl (TorrentSession.send_history_of_ne s message hb)
  cases h with
  | dialSent | sent | haveSent | announced => exact Or.inl ⟨rfl, hsend _ _⟩
  | asked =>
    rename_i index
    refine Or.inl ⟨rfl, ?_⟩
    by_cases hb : b = a
    · subst hb
      exact Or.inr ⟨.asked index, rfl, by simp⟩
    · exact Or.inl (TorrentSession.record_history_of_ne s _ hb)
  | connecting habsent =>
    by_cases hb : b = a
    · subst hb
      exact Or.inr ⟨rfl, .connecting rfl habsent (by simp) rfl⟩
    · exact Or.inl ⟨TorrentSession.setPeer_peer_of_ne s _ hb, Or.inl rfl⟩
  | dialled =>
    by_cases hb : b = a
    · subst hb
      exact Or.inr ⟨rfl, .dialled rfl (by simp) rfl⟩
    · exact Or.inl ⟨TorrentSession.insertPending_peer_of_ne s _ _ hb, Or.inl rfl⟩
  | removed =>
    by_cases hb : b = a
    · subst hb
      exact Or.inr ⟨rfl, .removed (by simp)⟩
    · exact Or.inl ⟨TorrentSession.terminateWith_peer_of_ne s hb,
        Or.inl (TorrentSession.terminateWith_history_of_ne s hb)⟩
  | greeted =>
    rename_i infoHash peerId outbound
    by_cases hb : b = a
    · subst hb
      exact Or.inr ⟨rfl, .greeted rfl (by simp) (by simp)⟩
    · exact Or.inl ⟨TorrentSession.insertPending_peer_of_ne s _ _ hb,
        Or.inl (TorrentSession.record_history_of_ne (s.insertPending a peerId outbound) _ hb)⟩
  | opened =>
    by_cases hb : b = a
    · subst hb
      exact Or.inr ⟨rfl, .opened rfl (by simp) (by simp) (by simp)⟩
    · exact Or.inl ⟨TorrentSession.insertPipeline_peer_of_ne s host _ _ hb,
        Or.inl (TorrentSession.insertPipeline_history_of_ne s host _ _ hb)⟩
  | _ => exact Or.inl ⟨rfl, Or.inl rfl⟩

/-- A pipeline keeps its number and its peer. -/
theorem Act.pipeline_next (h : Act host s a pc choice s' pc') {i : Nat} {p : Pipeline D A}
    (hi : s.pipelines[i]? = some p) :
    ∃ p', s'.pipelines[i]? = some p' ∧ p'.peer = p.peer := by
  have hset : ∀ {k : Nat} {q q' : Pipeline D A}, s.pipelines[k]? = some q → q'.peer = q.peer →
      ∃ p', (s.pipelines.set k q')[i]? = some p' ∧ p'.peer = p.peer := by
    intro k q q' hk hpeer
    rcases getElem?_set_cases q' hk hi with ⟨_, rfl, hnew⟩ | ⟨_, hold⟩
    · exact ⟨q', hnew, hpeer⟩
    · exact ⟨p, hold, rfl⟩
  cases h with
  | opened =>
    exact ⟨p, (List.getElem?_append_left (List.getElem?_eq_some_iff.mp hi).1).trans hi, rfl⟩
  | touched hp _ _ hq => exact hset hp hq.1
  | evaluated hp | emptied hp | uninterested hp | unchoked hp | choked hp | filled hp
  | cleared hp => exact hset hp rfl
  | _ => exact ⟨p, hi, rfl⟩

end Cases

end Bqti.Session.Peers
