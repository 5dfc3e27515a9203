import Bqti.Session.Download.Step
import Bqti.Session.Lifecycle.Ownership

/-!
# Pieces on their way through a session

Over the lifecycle of a session run the tasks that bring pieces in: calls of `process_piece`
mark a piece and send it to the channel of the current downloading state, a downloader receives
from its own channel and spawns a write task, and a write task that sees the last piece marked
signals its downloader. A channel and a signal are named by the token of their downloader.
-/

namespace Bqti.Session.Lifecycle

open Bqti.Core Bqti.Torrent
open Bqti.Session.Download (PieceTask PiecePc WriteTask WritePc addPiece channelCapacity)

/-- A session with the pieces on their way. -/
structure Flow where
  life : State
  pieces : List PieceTask
  queue : Nat → List (UInt32 × Bytes)
  done : Nat → Bool
  writes : List WriteTask
  pendingWrites : Nat

/-- The steps of a session with its pieces. -/
inductive FlowLabel
  | life (l : Label)
  | receive (index : UInt32) (data : Bytes)
  | piece (k : Nat)
  | recv (i : Nat)
  | write (k : Nat) (ok : Bool)

namespace Flow

/-- A new session. -/
def new (pieceCount : Nat) : Flow where
  life := .new pieceCount
  pieces := []
  queue := fun _ => []
  done := fun _ => false
  writes := []
  pendingWrites := 0

/-- Move a call of `process_piece`. -/
def setPiece (f : Flow) (k : Nat) (t : PieceTask) (pc : PiecePc) : Flow :=
  { f with pieces := f.pieces.set k { t with pc := pc } }

/-- Move a write task. -/
def setWrite (f : Flow) (k : Nat) (t : WriteTask) (pc : WritePc) : Flow :=
  { f with writes := f.writes.set k { t with pc := pc } }

/-- Write the session bitfield. -/
def setBitfield (f : Flow) (bitfield : BitField) : Flow :=
  { f with life := { f.life with bitfield := bitfield } }

/-- Replace what is in a channel. -/
def setQueue (f : Flow) (token : Nat) (queue : List (UInt32 × Bytes)) : Flow :=
  { f with queue := Function.update f.queue token queue }

/-- Send the done signal of a downloader. -/
def sendDone (f : Flow) (token : Nat) : Flow :=
  { f with done := Function.update f.done token true }

/-- One piece less is on its way to the disk. -/
def settle (f : Flow) : Flow := { f with pendingWrites := f.pendingWrites - 1 }

/-- One more piece is on its way to the disk. -/
def count (f : Flow) : Flow := { f with pendingWrites := f.pendingWrites + 1 }

/-- A strong handle of the resources of a downloader exists for certain: it is in its loop, or
another write task of it holds one. -/
def held (f : Flow) (token : Nat) : Bool :=
  (f.life.workers.any fun w => w.spawn.token == token && w.pc == .looping) ||
    f.writes.any fun t => t.gen == token && t.pc.holdsResources

/-- The downloader has left its loop and may or may not have dropped its resources. -/
def leaving (f : Flow) (token : Nat) : Bool :=
  f.life.workers.any fun w => w.spawn.token == token && w.pc == .left

end Flow

/-- The receiver of a channel exists: it belongs to the call that is about to spawn the worker,
and then to the worker until that ends. -/
def State.channelOpen (s : State) (token : Nat) : Bool :=
  (s.waiting.any fun v => v.token == token) ||
    s.workers.any fun w => w.spawn.token == token && w.pc != .stopped

/-- Send a piece to the current downloader. A missing or closed channel loses the piece; a full
channel blocks the sender. -/
def sendDownloadedPiece (f : Flow) (index : UInt32) (data : Bytes) : Option Flow :=
  match f.life.state with
  | .downloading _ _ _ token =>
      if f.life.channelOpen token then
        if (f.queue token).length < channelCapacity then
          some (f.setQueue token (f.queue token ++ [(index, data)]))
        else none
      else some f.settle
  | _ => some f.settle

/-- One step of `process_piece`. -/
def stepPiece (f : Flow) (k : Nat) (t : PieceTask) : Option Flow :=
  match t.pc with
  | .start =>
      match addPiece f.life.bitfield t.index with
      | some (true, bitfield) => some ((f.setBitfield bitfield).setPiece k t .added)
      | _ => some (f.setPiece k t .finished)
  | .added => some (f.count.setPiece k t .counted)
  | .counted => (sendDownloadedPiece f t.index t.data).map fun f' => f'.setPiece k t .finished
  | .finished => none

/-- A downloader receives from its channel and spawns a write task. -/
def stepRecv (f : Flow) (w : Worker) : Option Flow :=
  if w.spawn.kind = .downloader ∧ w.pc = .looping then
    match f.queue w.spawn.token with
    | [] => none
    | (index, data) :: rest =>
        some { f.setQueue w.spawn.token rest with
          writes := f.writes ++ [⟨w.spawn.token, index, data, .spawned⟩] }
  else none

/-- One step of a write task; the last one looks at the number of marked pieces. -/
def stepWrite (verifyHash : UInt32 → Bytes → Except TorrentError Unit) (pieceCount : Nat)
    (f : Flow) (k : Nat) (t : WriteTask) (ok : Bool) : Option Flow :=
  match t.pc with
  | .spawned =>
      if f.held t.gen || (ok && f.leaving t.gen) then some (f.setWrite k t .upgraded)
      else some (f.setWrite k t .dropped)
  | .upgraded =>
      match verifyHash t.index t.data with
      | .error _ => some (f.settle.setWrite k t .finished)
      | .ok () => some (f.setWrite k t .verified)
  | .verified =>
      if ok then some (f.settle.setWrite k t .written)
      else some (f.settle.setWrite k t .finished)
  | .written =>
      if f.life.bitfield.count = some pieceCount then
        some ((f.sendDone t.gen).setWrite k t .finished)
      else some (f.setWrite k t .finished)
  | .finished | .dropped => none

/-- What the pieces add to the lifecycle: the done signal must have been sent, and a channel
closes only when it is empty. -/
def Flow.enabled (f : Flow) : Label → Bool
  | .leave i .done => (f.life.workers[i]?).any fun w => f.done w.spawn.token
  | .leave i .closed => (f.life.workers[i]?).any fun w => (f.queue w.spawn.token).isEmpty
  | _ => true

/-- One step of a session with its pieces. -/
def flowStep (sha1 : Bytes → Hash20) (verifyHash : UInt32 → Bytes → Except TorrentError Unit)
    (torrent : Metafile) (f : Flow) : FlowLabel → Option Flow
  | .life l =>
      if f.enabled l then (step sha1 torrent f.life l).map fun life => { f with life := life }
      else none
  | .receive index data => some { f with pieces := f.pieces ++ [⟨index, data, .start⟩] }
  | .piece k => (f.pieces[k]?).bind fun t => stepPiece f k t
  | .recv i => (f.life.workers[i]?).bind fun w => stepRecv f w
  | .write k ok =>
      (f.writes[k]?).bind fun t => stepWrite verifyHash torrent.pieceHashes.length f k t ok

/-! ## What a step can do -/

/-- The write task ends without having written its piece. -/
def failsWith (verifyHash : UInt32 → Bytes → Except TorrentError Unit) (t : WriteTask)
    (ok : Bool) : Bool :=
  match t.pc with
  | .upgraded =>
      match verifyHash t.index t.data with
      | .error _ => true
      | .ok () => false
  | .verified => !ok
  | _ => false

/-- What a label can do to a session with its pieces. -/
inductive FlowMove (sha1 : Bytes → Hash20)
    (verifyHash : UInt32 → Bytes → Except TorrentError Unit) (torrent : Metafile) (f : Flow) :
    FlowLabel → Flow → Prop
  | life {l : Label} {life : State} (hlife : step sha1 torrent f.life l = some life) :
      FlowMove sha1 verifyHash torrent f (.life l) { f with life := life }
  | receive (index : UInt32) (data : Bytes) :
      FlowMove sha1 verifyHash torrent f (.receive index data)
        { f with pieces := f.pieces ++ [⟨index, data, .start⟩] }
  | accept {k : Nat} {t : PieceTask} {bitfield : BitField} (hk : f.pieces[k]? = some t)
      (hpc : t.pc = .start) (hadd : addPiece f.life.bitfield t.index = some (true, bitfield)) :
      FlowMove sha1 verifyHash torrent f (.piece k)
        ((f.setBitfield bitfield).setPiece k t .added)
  | decline {k : Nat} {t : PieceTask} (hk : f.pieces[k]? = some t) (hpc : t.pc = .start) :
      FlowMove sha1 verifyHash torrent f (.piece k) (f.setPiece k t .finished)
  | count {k : Nat} {t : PieceTask} (hk : f.pieces[k]? = some t) (hpc : t.pc = .added) :
      FlowMove sha1 verifyHash torrent f (.piece k) (f.count.setPiece k t .counted)
  | enqueue {k : Nat} {t : PieceTask} {token : Nat} (hk : f.pieces[k]? = some t)
      (hpc : t.pc = .counted) (htoken : f.life.state.token = some token) :
      FlowMove sha1 verifyHash torrent f (.piece k)
        ((f.setQueue token (f.queue token ++ [(t.index, t.data)])).setPiece k t .finished)
  | lose {k : Nat} {t : PieceTask} (hk : f.pieces[k]? = some t) (hpc : t.pc = .counted)
      (hlost : ∀ path dest resources token,
        f.life.state = .downloading path dest resources token →
          f.life.channelOpen token = false) :
      FlowMove sha1 verifyHash torrent f (.piece k) (f.settle.setPiece k t .finished)
  | recv {i : Nat} {w : Worker} {index : UInt32} {data : Bytes} {rest : List (UInt32 × Bytes)}
      (hi : f.life.workers[i]? = some w) (hpc : w.pc = .looping)
      (hqueue : f.queue w.spawn.token = (index, data) :: rest) :
      FlowMove sha1 verifyHash torrent f (.recv i)
        { f.setQueue w.spawn.token rest with
          writes := f.writes ++ [⟨w.spawn.token, index, data, .spawned⟩] }
  | upgrade {k : Nat} {t : WriteTask} (ok : Bool) (hk : f.writes[k]? = some t)
      (hpc : t.pc = .spawned) :
      FlowMove sha1 verifyHash torrent f (.write k ok) (f.setWrite k t .upgraded)
  | drop {k : Nat} {t : WriteTask} (ok : Bool) (hk : f.writes[k]? = some t)
      (hpc : t.pc = .spawned) (hheld : f.held t.gen = false) :
      FlowMove sha1 verifyHash torrent f (.write k ok) (f.setWrite k t .dropped)
  | verify {k : Nat} {t : WriteTask} (ok : Bool) (hk : f.writes[k]? = some t)
      (hpc : t.pc = .upgraded) :
      FlowMove sha1 verifyHash torrent f (.write k ok) (f.setWrite k t .verified)
  | fail {k : Nat} {t : WriteTask} (ok : Bool) (hk : f.writes[k]? = some t)
      (hfails : failsWith verifyHash t ok = true) :
      FlowMove sha1 verifyHash torrent f (.write k ok) (f.settle.setWrite k t .finished)
  | wrote {k : Nat} {t : WriteTask} (ok : Bool) (hk : f.writes[k]? = some t)
      (hpc : t.pc = .verified) :
      FlowMove sha1 verifyHash torrent f (.write k ok) (f.settle.setWrite k t .written)
  | signal {k : Nat} {t : WriteTask} (ok : Bool) (hk : f.writes[k]? = some t)
      (hpc : t.pc = .written) :
      FlowMove sha1 verifyHash torrent f (.write k ok) ((f.sendDone t.gen).setWrite k t .finished)
  | skip {k : Nat} {t : WriteTask} (ok : Bool) (hk : f.writes[k]? = some t)
      (hpc : t.pc = .written)
      (hcount : f.life.bitfield.count ≠ some torrent.pieceHashes.length) :
      FlowMove sha1 verifyHash torrent f (.write k ok) (f.setWrite k t .finished)

section Moves

variable {sha1 : Bytes → Hash20} {verifyHash : UInt32 → Bytes → Except TorrentError Unit}
  {torrent : Metafile} {f f' : Flow}

/-- A task for a piece makes one of the moves. -/
theorem stepPiece_move {k : Nat} {t : PieceTask} (hk : f.pieces[k]? = some t)
    (h : stepPiece f k t = some f') : FlowMove sha1 verifyHash torrent f (.piece k) f' := by
  unfold stepPiece at h
  split at h
  case h_1 hpc =>
    split at h
    · exact Option.some.inj h ▸ .accept hk hpc ‹_›
    · exact Option.some.inj h ▸ .decline hk hpc
  case h_2 hpc => exact Option.some.inj h ▸ .count hk hpc
  case h_3 hpc =>
    obtain ⟨u, hu, rfl⟩ := Option.map_eq_some_iff.mp h
    unfold sendDownloadedPiece at hu
    split at hu
    · rename_i path dest resources token hstate
      split at hu
      · split at hu
        · exact Option.some.inj hu ▸ .enqueue hk hpc (by rw [hstate]; rfl)
        · contradiction
      · rename_i hclosed
        refine Option.some.inj hu ▸ .lose hk hpc fun path' dest' resources' token' hstate' => ?_
        cases hstate.symm.trans hstate'
        simpa using hclosed
    · rename_i hno
      refine Option.some.inj hu ▸ .lose hk hpc fun path dest resources token hstate => ?_
      exact absurd hstate (hno path dest resources token)
  case h_4 => contradiction

/-- A write makes one of the moves. -/
theorem stepWrite_move {k : Nat} {t : WriteTask} {ok : Bool} (hk : f.writes[k]? = some t)
    (h : stepWrite verifyHash torrent.pieceHashes.length f k t ok = some f') :
    FlowMove sha1 verifyHash torrent f (.write k ok) f' := by
  unfold stepWrite at h
  split at h
  case h_1 hpc =>
    split at h
    · exact Option.some.inj h ▸ .upgrade ok hk hpc
    · rename_i hno
      simp only [Bool.or_eq_true, not_or, Bool.not_eq_true] at hno
      exact Option.some.inj h ▸ .drop ok hk hpc hno.1
  case h_2 hpc =>
    split at h
    · rename_i e he
      exact Option.some.inj h ▸ .fail ok hk (by simp [failsWith, hpc, he])
    · exact Option.some.inj h ▸ .verify ok hk hpc
  case h_3 hpc =>
    split at h
    · exact Option.some.inj h ▸ .wrote ok hk hpc
    · rename_i hok
      exact Option.some.inj h ▸ .fail ok hk (by simpa [failsWith, hpc] using hok)
  case h_4 hpc =>
    split at h
    · exact Option.some.inj h ▸ .signal ok hk hpc
    · exact Option.some.inj h ▸ .skip ok hk hpc ‹_›
  all_goals contradiction

/-- Every step is a move. -/
theorem flowStep_move {l : FlowLabel} (h : flowStep sha1 verifyHash torrent f l = some f') :
    FlowMove sha1 verifyHash torrent f l f' := by
  cases l with
  | life l =>
    simp only [flowStep] at h
    split at h
    · obtain ⟨life, hlife, rfl⟩ := Option.map_eq_some_iff.mp h
      exact .life hlife
    · contradiction
  | receive index data => exact Option.some.inj h ▸ .receive index data
  | piece k =>
    obtain ⟨t, hk, hstep⟩ := Option.bind_eq_some_iff.mp h
    exact stepPiece_move hk hstep
  | recv i =>
    obtain ⟨w, hi, hstep⟩ := Option.bind_eq_some_iff.mp h
    unfold stepRecv at hstep
    split at hstep
    · rename_i hguard
      split at hstep
      · contradiction
      · exact Option.some.inj hstep ▸ .recv hi hguard.2 ‹_›
    · contradiction
  | write k ok =>
    obtain ⟨t, hk, hstep⟩ := Option.bind_eq_some_iff.mp h
    exact stepWrite_move hk hstep

/-- A step is one of the lifecycle, or leaves of it all but the bitfield. -/
theorem FlowMove.life_cases {l : FlowLabel} (h : FlowMove sha1 verifyHash torrent f l f') :
    (∃ m, l = .life m ∧ step sha1 torrent f.life m = some f'.life) ∨
      ∃ bitfield, f'.life = { f.life with bitfield := bitfield } := by
  cases h with
  | life hlife => exact Or.inl ⟨_, rfl, hlife⟩
  | accept hk hpc hadd => exact Or.inr ⟨_, rfl⟩
  | _ => exact Or.inr ⟨f.life.bitfield, rfl⟩

end Moves

/-- The lifecycle reads the bitfield nowhere in what discipline says. -/
theorem Disciplined.setBitfield {s : State} (h : Disciplined s) (bitfield : BitField) :
    Disciplined { s with bitfield := bitfield } where
  current := h.current
  pending := h.pending
  spawning := h.spawning
  workers := h.workers

/-- In every run the session is disciplined. -/
theorem flow_disciplined {sha1 : Bytes → Hash20}
    {verifyHash : UInt32 → Bytes → Except TorrentError Unit} {torrent : Metafile} {n : Nat}
    {labels : List FlowLabel} {f : Flow}
    (h : run (flowStep sha1 verifyHash torrent) (.new n) labels = some f) : Disciplined f.life := by
  have hstep : ∀ (g : Flow) (l : FlowLabel) (g' : Flow), Disciplined g.life →
      flowStep sha1 verifyHash torrent g l = some g' → Disciplined g'.life := by
    intro g l g' hg hmove
    rcases (flowStep_move hmove).life_cases with ⟨m, -, hlife⟩ | ⟨bitfield, hlife⟩
    · exact (step_move hlife).disciplined hg
    · rw [hlife]
      exact hg.setBitfield bitfield
  have hend := run_invariant hstep (disciplined_new n) h
  exact hend

end Bqti.Session.Lifecycle
