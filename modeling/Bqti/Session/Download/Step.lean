import Bqti.Core.Pool
import Bqti.Core.Run
import Bqti.Session.Download.State

/-!
# Steps of a downloading session

A label names the task that moves and what the environment answers: whether a file
operation succeeds, or which branch of the worker's loop is taken. Each step is one
stretch of the source between two points where another task can run, so a list of
labels is an interleaving of all tasks. A panic ends only the task it happens in.
-/

namespace Bqti.Session.Download

open Bqti.Core Bqti.Torrent

/-- What a worker does next. -/
inductive WorkerAct
  | tick
  | recv
  | leave (reason : ExitReason)
  | proceed (ok : Bool)
  deriving DecidableEq, Repr

/-- One step of the session. -/
inductive Label
  | receive (index : UInt32) (data : Bytes)
  | request (target : Transition)
  | piece (k : Nat)
  | write (k : Nat) (ok : Bool)
  | transition (k : Nat) (ok : Bool)
  | worker (gen : Nat) (act : WorkerAct)
  deriving DecidableEq, Repr

/-- Mark a piece in the session bitfield; `false` when it was already marked, `none` for a
panic. An index outside the bitfield is accepted and marks nothing. -/
def addPiece (bitfield : BitField) (index : UInt32) : Option (Bool × BitField) := do
  if ← bitfield.haveBit index.toNat then return (false, bitfield)
  return (true, ← bitfield.set index.toNat)

/-- The capacity of the channel to a worker. -/
def channelCapacity : Nat := 64

/-- Send a piece to the current worker. A missing or closed channel loses the piece; a full
channel blocks the sender. -/
def sendDownloadedPiece (s : State) (index : UInt32) (data : Bytes) : Option State :=
  match s.state with
  | .downloading gen _ =>
      match s.workers[gen]? with
      | none => none
      | some w =>
          if w.pc = .stopped then some { s with pendingWrites := s.pendingWrites - 1 }
          else if w.queue.length < channelCapacity then
            some (s.setWorker gen { w with queue := w.queue ++ [(index, data)] })
          else none
  | _ => some { s with pendingWrites := s.pendingWrites - 1 }

/-- One step of `process_piece`. -/
def stepPiece (s : State) (k : Nat) (t : PieceTask) : Option State :=
  match t.pc with
  | .start =>
      match addPiece s.bitfield t.index with
      | some (true, bitfield) => some ({ s with bitfield := bitfield }.setPiece k t .added)
      | _ => some (s.setPiece k t .finished)
  | .added => some ({ s with pendingWrites := s.pendingWrites + 1 }.setPiece k t .counted)
  | .counted => (sendDownloadedPiece s t.index t.data).map fun s' => s'.setPiece k t .finished
  | .finished => none

/-- One step of a write task. A failed upgrade returns without touching the counter; the
last step checks the number of marked pieces and signals the worker. -/
def stepWrite (torrent : Metadata) (s : State) (k : Nat) (t : WriteTask) (ok : Bool) :
    Option State :=
  let settled := { s with pendingWrites := s.pendingWrites - 1 }
  match t.pc with
  | .spawned =>
      if s.upgradable t.gen then some (s.setWrite k t .upgraded)
      else some (s.setWrite k t .dropped)
  | .upgraded =>
      match torrent.verifyHash t.index t.data with
      | .error _ => some (settled.setWrite k t .finished)
      | .ok () => some (s.setWrite k t .verified)
  | .verified =>
      if ok then
        some ({ settled with written := s.written ++ [(t.index, t.data)] }.setWrite k t .written)
      else some (settled.setWrite k t .finished)
  | .written =>
      if s.bitfield.count = some torrent.pieceHashes.length then
        some ((s.sendDone t.gen).setWrite k t .finished)
      else some (s.setWrite k t .finished)
  | .finished | .dropped => none

/-- Open the files of the torrent and read the resume file. -/
def openResources (s : State) (k : Nat) (t : TransitionTask) (ok : Bool) : State :=
  if ok then s.setTransition k t (.opened s.resume) else s.setTransition k t .finished

/-- Install a fresh downloading state and spawn its worker. In a cancelled session the new
state is dropped at once, which cancels its token; the worker is spawned all the same. -/
def installDownloader (s : State) : State :=
  let s' := s.swapState (.downloading s.workers.length true)
  { s' with workers := s'.workers ++ [.new (s.state = .cancelled)] }

/-- One step of `transition`. -/
def stepTransition (s : State) (k : Nat) (t : TransitionTask) (ok : Bool) : Option State :=
  match t.pc with
  | .requested =>
      if s.state.canTransitionTo t.target then some (s.setTransition k t .checked)
      else some (s.setTransition k t .finished)
  | .checked => some (s.cancelInner.setTransition k t .innerCancelled)
  | .innerCancelled =>
      match t.target with
      | .download => some (openResources s k t ok)
      | .resume =>
          match s.state with
          | .idle (some .downloading) => some (s.setTransition k t .opening)
          | _ => some (s.setTransition k t .finished)
      | .pause =>
          match s.state with
          | .downloading _ _ => some (s.setTransition k t (.swapping (.idle (some .downloading))))
          | _ => some (s.setTransition k t (.swapping (.idle none)))
      | .cancel =>
          match s.state with
          | .cancelled => some (s.setTransition k t .finished)
          | _ => some (s.setTransition k t (.swapping .cancelled))
  | .opening => some (openResources s k t ok)
  | .opened (some b) => some ({ s with bitfield := b }.setTransition k t .loaded)
  | .opened none => some (s.setTransition k t .loaded)
  | .loaded => some ((installDownloader s).setTransition k t .finished)
  | .swapping next => some ((s.swapState next).setTransition k t .finished)
  | .finished => none

/-- Whether a worker may leave its loop for a reason: its token is cancelled, its done
signal was sent, or its channel is empty and the state that held the sender is gone. -/
def canLeave (s : State) (gen : Nat) (w : Worker) : ExitReason → Bool
  | .cancelled => w.cancelled
  | .done => w.doneSent
  | .closed =>
      w.queue.isEmpty && match s.state with
        | .downloading g _ => g != gen
        | _ => true

/-- Write a snapshot to the resume file, which stays as it is when the write fails. -/
def persistResume (s : State) (snapshot : BitField) (ok : Bool) : State :=
  { s with resume := if ok then some snapshot else s.resume }

/-- One step of a downloader worker. -/
def stepWorker (s : State) (gen : Nat) (w : Worker) (act : WorkerAct) : Option State :=
  match w.pc, act with
  | .spawned, .proceed _ =>
      match s.state with
      | .downloading g true =>
          some ({ s with state := .downloading g false }.setWorker gen { w with pc := .looping })
      | _ => some (s.setWorker gen { w with pc := .stopped })
  | .looping, .tick => some (s.setWorker gen { w with pc := .persisting s.bitfield })
  | .persisting b, .proceed ok =>
      some ((persistResume s b ok).setWorker gen { w with pc := .looping })
  | .looping, .recv =>
      match w.queue with
      | [] => none
      | (index, data) :: queue =>
          some { s.setWorker gen { w with queue := queue } with
            writes := s.writes ++ [⟨gen, index, data, .spawned⟩] }
  | .looping, .leave reason =>
      if canLeave s gen w reason then some (s.setWorker gen { w with pc := .left reason })
      else none
  | .left reason, .proceed _ =>
      some (s.setWorker gen { w with pc := .leftPersisting reason s.bitfield })
  | .leftPersisting reason b, .proceed ok =>
      some ((persistResume s b ok).setWorker gen { w with pc := .persisted reason })
  | .persisted reason, .proceed _ => some (s.setWorker gen { w with pc := .released reason })
  | .released reason, .proceed _ =>
      if w.cancelled then some (s.setWorker gen { w with pc := .stopped })
      else some (s.setWorker gen { w with pc := .completed reason, cancelled := true })
  | _, _ => none

/-- One step of the session. Payloads arrive only for requested, existing pieces, and a payload
without data is split off before `process_piece` sees it. -/
def step (torrent : Metadata) (s : State) : Label → Option State
  | .receive index data =>
      if index.toNat < torrent.pieceHashes.length ∧ data ≠ [] then
        some { s with pieces := s.pieces ++ [⟨index, data, .start⟩] }
      else none
  | .request target => some { s with transitions := s.transitions ++ [⟨target, .requested⟩] }
  | .piece k => (s.pieces[k]?).bind (stepPiece s k)
  | .write k ok => (s.writes[k]?).bind fun t => stepWrite torrent s k t ok
  | .transition k ok => (s.transitions[k]?).bind fun t => stepTransition s k t ok
  | .worker gen act => (s.workers[gen]?).bind fun w => stepWorker s gen w act

/-! ## What one step can do -/

section Cases

variable {torrent : Metadata} {s s' : State}

/-- A marked piece was not marked before, and the new bitfield is the old one with it. -/
theorem addPiece_eq_true {bf out : BitField} {index : UInt32}
    (h : addPiece bf index = some (true, out)) :
    bf.haveBit index.toNat = some false ∧ bf.set index.toNat = some out := by
  unfold addPiece at h
  cases hbit : bf.haveBit index.toNat with
  | none => simp [hbit] at h
  | some present =>
    cases present with
    | true => simp [hbit] at h
    | false =>
      cases hset : bf.set index.toNat with
      | none => simp [hbit, hset] at h
      | some bf' => simp_all

/-- The cases of a send: into the open channel, or lost with its count taken back. -/
theorem sendDownloadedPiece_cases {index : UInt32} {data : Bytes}
    (h : sendDownloadedPiece s index data = some s') :
    (∃ gen w, s.workers[gen]? = some w ∧
      s' = s.setWorker gen { w with queue := w.queue ++ [(index, data)] }) ∨
    (s.channelOpen = false ∧ s' = { s with pendingWrites := s.pendingWrites - 1 }) := by
  unfold sendDownloadedPiece at h
  split at h
  · rename_i gen r hstate
    split at h
    · exact absurd h (by simp)
    · rename_i w hw
      split at h
      · rename_i hstopped
        refine Or.inr ⟨?_, (Option.some.inj h).symm⟩
        simp [State.channelOpen, hstate, hw, hstopped]
      · split at h
        · exact Or.inl ⟨gen, w, hw, (Option.some.inj h).symm⟩
        · exact absurd h (by simp)
  · rename_i hno
    refine Or.inr ⟨?_, (Option.some.inj h).symm⟩
    unfold State.channelOpen
    split
    · rename_i gen r hstate
      exact absurd hstate (hno gen r)
    · rfl

/-- The cases of a call of `process_piece`. -/
theorem stepPiece_cases {k : Nat} {t : PieceTask} (h : stepPiece s k t = some s') :
    (t.pc = .start ∧ ∃ bf, addPiece s.bitfield t.index = some (true, bf) ∧
      s' = { s with bitfield := bf }.setPiece k t .added) ∨
    (t.pc = .start ∧ s' = s.setPiece k t .finished) ∨
    (t.pc = .added ∧
      s' = { s with pendingWrites := s.pendingWrites + 1 }.setPiece k t .counted) ∨
    (t.pc = .counted ∧ ∃ u, sendDownloadedPiece s t.index t.data = some u ∧
      s' = u.setPiece k t .finished) := by
  cases hpc : t.pc with
  | start =>
    simp only [stepPiece, hpc] at h
    split at h
    · rename_i bf hadd
      exact Or.inl ⟨rfl, bf, hadd, (Option.some.inj h).symm⟩
    · exact Or.inr (Or.inl ⟨rfl, (Option.some.inj h).symm⟩)
  | added =>
    simp only [stepPiece, hpc] at h
    exact Or.inr (Or.inr (Or.inl ⟨rfl, (Option.some.inj h).symm⟩))
  | counted =>
    simp only [stepPiece, hpc, Option.map_eq_some_iff] at h
    obtain ⟨u, hu, he⟩ := h
    exact Or.inr (Or.inr (Or.inr ⟨rfl, u, hu, he.symm⟩))
  | finished =>
    simp only [stepPiece, hpc] at h
    exact absurd h (by simp)

/-- The cases of a write task. -/
theorem stepWrite_cases {k : Nat} {t : WriteTask} {ok : Bool}
    (h : stepWrite torrent s k t ok = some s') :
    (t.pc = .spawned ∧ (s' = s.setWrite k t .upgraded ∨ s' = s.setWrite k t .dropped)) ∨
    (t.pc = .upgraded ∧ torrent.verifyHash t.index t.data = .ok () ∧
      s' = s.setWrite k t .verified) ∨
    (t.pc = .verified ∧ ok = true ∧
      s' = { s with
        pendingWrites := s.pendingWrites - 1
        written := s.written ++ [(t.index, t.data)] }.setWrite k t .written) ∨
    ((t.pc = .upgraded ∧ torrent.verifyHash t.index t.data ≠ .ok () ∨
        t.pc = .verified ∧ ok = false) ∧
      s' = { s with pendingWrites := s.pendingWrites - 1 }.setWrite k t .finished) ∨
    (t.pc = .written ∧ s.bitfield.count = some torrent.pieceHashes.length ∧
      s' = (s.sendDone t.gen).setWrite k t .finished) ∨
    (t.pc = .written ∧ s' = s.setWrite k t .finished) := by
  cases hpc : t.pc with
  | spawned =>
    simp only [stepWrite, hpc] at h
    refine Or.inl ⟨rfl, ?_⟩
    split at h
    · exact Or.inl (Option.some.inj h).symm
    · exact Or.inr (Option.some.inj h).symm
  | upgraded =>
    simp only [stepWrite, hpc] at h
    split at h
    · rename_i e he
      refine Or.inr (Or.inr (Or.inr (Or.inl ⟨Or.inl ⟨rfl, ?_⟩, (Option.some.inj h).symm⟩)))
      rw [he]
      simp
    · rename_i he
      exact Or.inr (Or.inl ⟨rfl, he, (Option.some.inj h).symm⟩)
  | verified =>
    simp only [stepWrite, hpc] at h
    split at h
    · rename_i hok
      exact Or.inr (Or.inr (Or.inl ⟨rfl, hok, (Option.some.inj h).symm⟩))
    · rename_i hok
      exact Or.inr (Or.inr (Or.inr (Or.inl
        ⟨Or.inr ⟨rfl, by simpa using hok⟩, (Option.some.inj h).symm⟩)))
  | written =>
    simp only [stepWrite, hpc] at h
    split at h
    · rename_i hcount
      exact Or.inr (Or.inr (Or.inr (Or.inr (Or.inl ⟨rfl, hcount, (Option.some.inj h).symm⟩))))
    · exact Or.inr (Or.inr (Or.inr (Or.inr (Or.inr ⟨rfl, (Option.some.inj h).symm⟩))))
  | finished =>
    simp only [stepWrite, hpc] at h
    exact absurd h (by simp)
  | dropped =>
    simp only [stepWrite, hpc] at h
    exact absurd h (by simp)

/-- What a worker has been sent: its channel and its done signal. -/
def Worker.mail (w : Worker) : List (UInt32 × Bytes) × Bool := (w.queue, w.doneSent)

/-- The two states agree on all accepted pieces; only workers without mail may be new. -/
structure SameWork (s s' : State) : Prop where
  pieces : s'.pieces = s.pieces
  writes : s'.writes = s.writes
  written : s'.written = s.written
  pending : s'.pendingWrites = s.pendingWrites
  mail : ∃ n, s'.workers.map Worker.mail =
    s.workers.map Worker.mail ++ List.replicate n ([], false)

/-- Cancelling a token keeps all mail. -/
theorem map_mail_cancelInner (s : State) :
    s.cancelInner.workers.map Worker.mail = s.workers.map Worker.mail := by
  unfold State.cancelInner
  split
  · exact map_modify_eq Worker.mail s.workers _ _ fun _ => rfl
  · rfl

/-- Replacing the state keeps the mail of the workers. -/
theorem map_mail_swapState (s : State) (next : TorrentState) :
    (s.swapState next).workers.map Worker.mail = s.workers.map Worker.mail := by
  unfold State.swapState
  split
  · rfl
  · exact map_mail_cancelInner s

/-- A cancellation keeps the accepted pieces. -/
theorem SameWork.cancelInner (s : State) : SameWork s s.cancelInner := by
  refine ⟨?_, ?_, ?_, ?_, 0, by simp [map_mail_cancelInner]⟩ <;>
    · unfold State.cancelInner
      split <;> rfl

/-- Replacing the state keeps the accepted pieces. -/
theorem SameWork.swapState (s : State) (next : TorrentState) : SameWork s (s.swapState next) := by
  refine ⟨?_, ?_, ?_, ?_, 0, by simp [map_mail_swapState]⟩ <;>
    · unfold State.swapState State.cancelInner
      split
      · rfl
      · split <;> rfl

/-- A transition touches no accepted piece. -/
theorem stepTransition_sameWork {k : Nat} {t : TransitionTask} {ok : Bool}
    (h : stepTransition s k t ok = some s') : SameWork s s' := by
  have hmove : ∀ u pc, SameWork s u → SameWork s (u.setTransition k t pc) := fun u pc hu =>
    ⟨hu.pieces, hu.writes, hu.written, hu.pending, hu.mail⟩
  have hself : SameWork s s := ⟨rfl, rfl, rfl, rfl, 0, by simp⟩
  have hopen : SameWork s (openResources s k t ok) := by
    unfold openResources
    split <;> exact hmove _ _ hself
  cases hpc : t.pc with
  | requested =>
    simp only [stepTransition, hpc] at h
    split at h <;> rw [← Option.some.inj h] <;> exact hmove _ _ hself
  | checked =>
    simp only [stepTransition, hpc, Option.some.injEq] at h
    rw [← h]
    exact hmove _ _ (SameWork.cancelInner s)
  | innerCancelled =>
    simp only [stepTransition, hpc] at h
    split at h
    · rw [← Option.some.inj h]
      exact hopen
    · split at h <;> rw [← Option.some.inj h] <;> exact hmove _ _ hself
    · split at h <;> rw [← Option.some.inj h] <;> exact hmove _ _ hself
    · split at h <;> rw [← Option.some.inj h] <;> exact hmove _ _ hself
  | opening =>
    simp only [stepTransition, hpc, Option.some.injEq] at h
    rw [← h]
    exact hopen
  | opened resume =>
    cases resume with
    | some b =>
      simp only [stepTransition, hpc, Option.some.injEq] at h
      rw [← h]
      exact hmove _ _ ⟨rfl, rfl, rfl, rfl, 0, by simp⟩
    | none =>
      simp only [stepTransition, hpc, Option.some.injEq] at h
      rw [← h]
      exact hmove _ _ hself
  | loaded =>
    simp only [stepTransition, hpc, Option.some.injEq] at h
    rw [← h]
    have hswap := SameWork.swapState s (.downloading s.workers.length true)
    refine hmove _ _ ⟨hswap.pieces, hswap.writes, hswap.written, hswap.pending, 1, ?_⟩
    simp only [installDownloader, List.map_append, map_mail_swapState]
    rfl
  | swapping next =>
    simp only [stepTransition, hpc, Option.some.injEq] at h
    rw [← h]
    exact hmove _ _ (SameWork.swapState s next)
  | finished =>
    simp only [stepTransition, hpc] at h
    exact absurd h (by simp)

/-- A worker receives the oldest piece of its channel, or touches no accepted piece. -/
theorem stepWorker_cases {gen : Nat} {w : Worker} {act : WorkerAct}
    (hw : s.workers[gen]? = some w) (h : stepWorker s gen w act = some s') :
    (∃ index data queue, w.queue = (index, data) :: queue ∧
      s' = { s.setWorker gen { w with queue := queue } with
        writes := s.writes ++ [⟨gen, index, data, .spawned⟩] }) ∨
    SameWork s s' := by
  have hmove : ∀ (u : State) (w' : Worker), u.workers = s.workers → u.pieces = s.pieces →
      u.writes = s.writes → u.written = s.written → u.pendingWrites = s.pendingWrites →
      w'.mail = w.mail → SameWork s (u.setWorker gen w') := by
    intro u w' hwk hp hws hwn hpd hmail
    refine ⟨hp, hws, hwn, hpd, 0, ?_⟩
    rw [State.setWorker, hwk, map_set_eq Worker.mail hw hmail]
    simp
  unfold stepWorker at h
  split at h
  · split at h <;> rw [← Option.some.inj h] <;>
      exact Or.inr (hmove _ _ rfl rfl rfl rfl rfl rfl)
  · rw [← Option.some.inj h]
    exact Or.inr (hmove _ _ rfl rfl rfl rfl rfl rfl)
  · rw [← Option.some.inj h]
    exact Or.inr (hmove _ _ rfl rfl rfl rfl rfl rfl)
  · split at h
    · exact absurd h (by simp)
    · rename_i index data queue hq
      exact Or.inl ⟨index, data, queue, hq, (Option.some.inj h).symm⟩
  · split at h
    · rw [← Option.some.inj h]
      exact Or.inr (hmove _ _ rfl rfl rfl rfl rfl rfl)
    · exact absurd h (by simp)
  · rw [← Option.some.inj h]
    exact Or.inr (hmove _ _ rfl rfl rfl rfl rfl rfl)
  · rw [← Option.some.inj h]
    exact Or.inr (hmove _ _ rfl rfl rfl rfl rfl rfl)
  · rw [← Option.some.inj h]
    exact Or.inr (hmove _ _ rfl rfl rfl rfl rfl rfl)
  · split at h <;> rw [← Option.some.inj h] <;>
      exact Or.inr (hmove _ _ rfl rfl rfl rfl rfl rfl)
  · exact absurd h (by simp)

/-- A worker leaves its loop only for a reason that holds. -/
theorem stepWorker_leave {gen : Nat} {w : Worker} {reason : ExitReason}
    (h : stepWorker s gen w (.leave reason) = some s') :
    canLeave s gen w reason = true ∧ s' = s.setWorker gen { w with pc := .left reason } := by
  cases hpc : w.pc with
  | looping =>
    simp only [stepWorker, hpc] at h
    split at h
    · rename_i hcan
      exact ⟨hcan, (Option.some.inj h).symm⟩
    · exact absurd h (by simp)
  | _ =>
    simp only [stepWorker, hpc] at h
    exact absurd h (by simp)

/-- The steps of the session: a payload or a request comes in, or one task moves on. -/
inductive Steps (torrent : Metadata) (s : State) : Label → State → Prop
  | receive {index : UInt32} {data : Bytes} (known : index.toNat < torrent.pieceHashes.length)
      (payload : data ≠ []) :
      Steps torrent s (.receive index data)
        { s with pieces := s.pieces ++ [⟨index, data, .start⟩] }
  | request {target : Transition} :
      Steps torrent s (.request target)
        { s with transitions := s.transitions ++ [⟨target, .requested⟩] }
  | piece {k : Nat} {t : PieceTask} {u : State} (task : s.pieces[k]? = some t)
      (move : stepPiece s k t = some u) : Steps torrent s (.piece k) u
  | write {k : Nat} {ok : Bool} {t : WriteTask} {u : State} (task : s.writes[k]? = some t)
      (move : stepWrite torrent s k t ok = some u) : Steps torrent s (.write k ok) u
  | transition {k : Nat} {ok : Bool} {t : TransitionTask} {u : State}
      (task : s.transitions[k]? = some t) (move : stepTransition s k t ok = some u) :
      Steps torrent s (.transition k ok) u
  | worker {gen : Nat} {act : WorkerAct} {w : Worker} {u : State}
      (task : s.workers[gen]? = some w) (move : stepWorker s gen w act = some u) :
      Steps torrent s (.worker gen act) u

/-- Every step is one of these. -/
theorem step_cases {a : Label} (h : step torrent s a = some s') : Steps torrent s a s' := by
  cases a with
  | receive index data =>
    simp only [step] at h
    split at h
    · rename_i hdata
      cases h
      exact .receive hdata.1 hdata.2
    · exact absurd h (by simp)
  | request target =>
    cases h
    exact .request
  | piece k =>
    obtain ⟨t, ht, hmove⟩ := Option.bind_eq_some_iff.mp h
    exact .piece ht hmove
  | write k ok =>
    obtain ⟨t, ht, hmove⟩ := Option.bind_eq_some_iff.mp h
    exact .write ht hmove
  | transition k ok =>
    obtain ⟨t, ht, hmove⟩ := Option.bind_eq_some_iff.mp h
    exact .transition ht hmove
  | worker gen act =>
    obtain ⟨w, hw, hmove⟩ := Option.bind_eq_some_iff.mp h
    exact .worker hw hmove

end Cases

end Bqti.Session.Download
