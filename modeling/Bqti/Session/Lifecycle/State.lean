import Bqti.Core.Run
import Bqti.Core.Pool
import Bqti.Session.Lifecycle.Resources

/-!
# Lifecycle of a session

A session is idle, downloading, seeding or cancelled. `transition` calls and the workers of the
two active states run concurrently; each of them is a task with a program point, and every
step of a task is what it does under one lock. A cancellation token is a number, and the
session records for every token whether it was cancelled. Finished tasks stay in their list,
so that a task keeps its number.
-/

namespace Bqti.Session.Lifecycle

open Bqti.Core Bqti.Chunks Bqti.Torrent

/-- What a paused session goes back to. -/
inductive LastState
  | downloading (dest : Path)
  | seeding (path : Path)
  deriving DecidableEq, Repr

/-- The state of a session. The resources of an active state are there until its worker takes
them. -/
inductive TorrentState
  | idle (last : Option LastState)
  | downloading (path dest : Path) (resources : Option (StateResources .downloading)) (token : Nat)
  | seeding (path : Path) (resources : Option (StateResources .seeding)) (token : Nat)
  | cancelled
  deriving DecidableEq, Repr

/-- The requested transitions. -/
inductive Transition
  | download (metafile : Metafile) (dest : Path)
  | seed (path : Path) (metafile : Metafile)
  | pause
  | resume (metafile : Metafile)
  | cancel
  deriving DecidableEq, Repr

/-- The displayed name of a transition. -/
def Transition.toString : Transition → String
  | .download _ _ => "Download"
  | .seed _ _ => "Seed"
  | .pause => "Pause"
  | .resume _ => "Resume"
  | .cancel => "Cancel"

namespace TorrentState

/-- The cancellation token of an active state. -/
def token : TorrentState → Option Nat
  | .downloading _ _ _ token => some token
  | .seeding _ _ token => some token
  | .idle _ | .cancelled => none

/-- The transition table. -/
def canTransitionTo : TorrentState → Transition → Bool
  | .idle none, .download _ _ => true
  | .idle none, .seed _ _ => true
  | .downloading _ _ _ _, .pause => true
  | .downloading _ _ _ _, .cancel => true
  | .downloading _ _ _ _, .seed _ _ => true
  | .seeding _ _ _, .pause => true
  | .seeding _ _ _, .cancel => true
  | .idle (some _), .resume _ => true
  | .idle (some _), .cancel => true
  | _, _ => false

/-- Take the resources of a downloading state, together with its destination. -/
def takeDownloading : TorrentState → Option ((Path × StateResources .downloading) × TorrentState)
  | .downloading path dest (some resources) token =>
      some ((dest, resources), .downloading path dest none token)
  | _ => none

/-- Take the resources of a seeding state. -/
def takeSeeding : TorrentState → Option (StateResources .seeding × TorrentState)
  | .seeding path (some resources) token => some (resources, .seeding path none token)
  | _ => none

/-- What pausing this state remembers. -/
def lastState : TorrentState → Option LastState
  | .downloading _ dest _ _ => some (.downloading dest)
  | .seeding path _ _ => some (.seeding path)
  | .idle _ | .cancelled => none

/-- The state apart from the resources that its worker may still have to take. -/
def withoutResources : TorrentState → TorrentState
  | .downloading path dest _ token => .downloading path dest none token
  | .seeding path _ token => .seeding path none token
  | state => state

end TorrentState

/-! ## Tasks -/

/-- The two kinds of worker. -/
inductive WorkerKind
  | downloader
  | seeder
  deriving DecidableEq, Repr

/-- A worker to be spawned: its kind, its cancellation token and, for a downloader, the
directory it will seed from. -/
structure Spawn where
  kind : WorkerKind
  token : Nat
  directory : Path
  deriving DecidableEq, Repr

/-- The worker that is spawned after a state was handed to `swap_state`. -/
def TorrentState.spawn : TorrentState → Option Spawn
  | .downloading path _ _ token => some ⟨.downloader, token, path⟩
  | .seeding path _ token => some ⟨.seeder, token, path⟩
  | .idle _ | .cancelled => none

/-- Where a call of `transition` stands. The last four points are final or lead straight to the
end: `unreachable` is the arm of that name, `panicked` an index outside a bitfield. -/
inductive Pc
  | requested
  | checked
  | reading
  | opening (metafile : Metafile) (last : LastState)
  | loading (bitfield : Option BitField) (next : TorrentState)
  | swapping (next : TorrentState)
  | spawning (worker : Spawn)
  | finished (result : Except TorrentSessionError Unit)
  | unreachable
  | panicked
  deriving DecidableEq

/-- A call of `transition`. -/
structure Call where
  target : Transition
  pc : Pc
  deriving DecidableEq

/-- Where a worker stands. A worker that left its loop still has to look at its token once
more before it asks for the next transition. -/
inductive WorkerPc
  | spawned
  | looping
  | left
  | concluding
  | stopped
  deriving DecidableEq, Repr

/-- A spawned worker. -/
structure Worker where
  spawn : Spawn
  pc : WorkerPc
  deriving DecidableEq, Repr

/-- A replacement of the state: the call that made it, what that call was asked for and the
states before and after. -/
structure Swap where
  call : Nat
  target : Transition
  previous : TorrentState
  next : TorrentState
  deriving DecidableEq

/-- Resources taken by a worker: its own token and the token of the state they came from. -/
structure Take where
  worker : Nat
  state : Option Nat
  deriving DecidableEq, Repr

/-- A session with all its calls and workers. The last two fields record the history of the
state and are read by no step. -/
structure State where
  state : TorrentState
  bitfield : BitField
  tokens : List Bool
  calls : List Call
  workers : List Worker
  swaps : List Swap
  takes : List Take
  deriving DecidableEq

namespace State

/-- A new session. -/
def new (pieceCount : Nat) : State where
  state := .idle none
  bitfield := .empty pieceCount
  tokens := []
  calls := []
  workers := []
  swaps := []
  takes := []

/-- Move a call. -/
def setCall (s : State) (k : Nat) (c : Call) (pc : Pc) : State :=
  { s with calls := s.calls.set k { c with pc := pc } }

/-- Move a worker. -/
def setWorker (s : State) (i : Nat) (w : Worker) (pc : WorkerPc) : State :=
  { s with workers := s.workers.set i { w with pc := pc } }

/-- Cancel a token. -/
def cancelToken (s : State) (token : Nat) : State :=
  { s with tokens := s.tokens.set token true }

/-- Whether a token is cancelled. -/
def isCancelled (s : State) (token : Nat) : Bool := s.tokens[token]? == some true

/-- Cancel the token of a state value, as `cancel_inner` and dropping the value do. -/
def cancelInner (s : State) (state : TorrentState) : State :=
  match state.token with
  | some token => s.cancelToken token
  | none => s

/-- Create a token. -/
def newToken (s : State) : State := { s with tokens := s.tokens ++ [false] }

/-- Write the bitfield that an opened state comes with, if any. -/
def load (s : State) : Option BitField → State
  | some bitfield => { s with bitfield := bitfield }
  | none => s

/-- Spawn a worker. -/
def spawnWorker (s : State) (worker : Spawn) : State :=
  { s with workers := s.workers ++ [⟨worker, .spawned⟩] }

/-- Leave a state behind whose resources a worker has taken. -/
def take (s : State) (worker : Spawn) (rest : TorrentState) : State :=
  { s with
    state := rest
    takes := s.takes ++ [⟨worker.token, s.state.token⟩] }

/-- A call asks for a transition. -/
def request (s : State) (target : Transition) : State :=
  { s with calls := s.calls ++ [⟨target, .requested⟩] }

/-- Put a state in the place of the current one, which is dropped. -/
def install (s : State) (k : Nat) (target : Transition) (next : TorrentState) : State :=
  { s.cancelInner s.state with
    state := next
    swaps := s.swaps ++ [⟨k, target, s.state, next⟩] }

/-- Replace the state unless the session is cancelled. Whichever of the two values is dropped
cancels its token. -/
def swapState (s : State) (k : Nat) (target : Transition) (next : TorrentState) : State :=
  match s.state with
  | .cancelled => s.cancelInner next
  | _ => s.install k target next

/-! ## What each update leaves alone -/

section Frame

variable (s : State) (k : Nat) (c : Call) (pc : Pc) (i : Nat) (w : Worker) (wpc : WorkerPc)

@[simp] theorem setCall_state : (s.setCall k c pc).state = s.state := rfl
@[simp] theorem setCall_bitfield : (s.setCall k c pc).bitfield = s.bitfield := rfl
@[simp] theorem setCall_tokens : (s.setCall k c pc).tokens = s.tokens := rfl
@[simp] theorem setCall_calls :
    (s.setCall k c pc).calls = s.calls.set k { c with pc := pc } := rfl
@[simp] theorem setCall_workers : (s.setCall k c pc).workers = s.workers := rfl
@[simp] theorem setCall_swaps : (s.setCall k c pc).swaps = s.swaps := rfl
@[simp] theorem setCall_takes : (s.setCall k c pc).takes = s.takes := rfl

@[simp] theorem setWorker_state : (s.setWorker i w wpc).state = s.state := rfl
@[simp] theorem setWorker_bitfield : (s.setWorker i w wpc).bitfield = s.bitfield := rfl
@[simp] theorem setWorker_tokens : (s.setWorker i w wpc).tokens = s.tokens := rfl
@[simp] theorem setWorker_calls : (s.setWorker i w wpc).calls = s.calls := rfl
@[simp] theorem setWorker_workers :
    (s.setWorker i w wpc).workers = s.workers.set i { w with pc := wpc } := rfl
@[simp] theorem setWorker_swaps : (s.setWorker i w wpc).swaps = s.swaps := rfl
@[simp] theorem setWorker_takes : (s.setWorker i w wpc).takes = s.takes := rfl

variable (t : Nat) (state : TorrentState)

@[simp] theorem cancelToken_state : (s.cancelToken t).state = s.state := rfl
@[simp] theorem cancelToken_bitfield : (s.cancelToken t).bitfield = s.bitfield := rfl
@[simp] theorem cancelToken_calls : (s.cancelToken t).calls = s.calls := rfl
@[simp] theorem cancelToken_workers : (s.cancelToken t).workers = s.workers := rfl
@[simp] theorem cancelToken_swaps : (s.cancelToken t).swaps = s.swaps := rfl
@[simp] theorem cancelToken_takes : (s.cancelToken t).takes = s.takes := rfl
@[simp] theorem cancelToken_tokens_length :
    (s.cancelToken t).tokens.length = s.tokens.length := List.length_set

@[simp] theorem cancelInner_state : (s.cancelInner state).state = s.state := by
  unfold cancelInner; split <;> rfl
@[simp] theorem cancelInner_bitfield : (s.cancelInner state).bitfield = s.bitfield := by
  unfold cancelInner; split <;> rfl
@[simp] theorem cancelInner_calls : (s.cancelInner state).calls = s.calls := by
  unfold cancelInner; split <;> rfl
@[simp] theorem cancelInner_workers : (s.cancelInner state).workers = s.workers := by
  unfold cancelInner; split <;> rfl
@[simp] theorem cancelInner_swaps : (s.cancelInner state).swaps = s.swaps := by
  unfold cancelInner; split <;> rfl
@[simp] theorem cancelInner_takes : (s.cancelInner state).takes = s.takes := by
  unfold cancelInner; split <;> rfl
@[simp] theorem cancelInner_tokens_length :
    (s.cancelInner state).tokens.length = s.tokens.length := by
  unfold cancelInner; split <;> simp

variable (target : Transition)

@[simp] theorem install_state : (s.install k target state).state = state := rfl
@[simp] theorem install_bitfield : (s.install k target state).bitfield = s.bitfield := by
  simp [install]
@[simp] theorem install_tokens :
    (s.install k target state).tokens = (s.cancelInner s.state).tokens := rfl
@[simp] theorem install_calls : (s.install k target state).calls = s.calls := by simp [install]
@[simp] theorem install_workers : (s.install k target state).workers = s.workers := by
  simp [install]
@[simp] theorem install_swaps :
    (s.install k target state).swaps = s.swaps ++ [⟨k, target, s.state, state⟩] := rfl
@[simp] theorem install_takes : (s.install k target state).takes = s.takes := by simp [install]

variable (bitfield : Option BitField)

@[simp] theorem load_state : (s.load bitfield).state = s.state := by cases bitfield <;> rfl
@[simp] theorem load_tokens : (s.load bitfield).tokens = s.tokens := by cases bitfield <;> rfl
@[simp] theorem load_calls : (s.load bitfield).calls = s.calls := by cases bitfield <;> rfl
@[simp] theorem load_workers : (s.load bitfield).workers = s.workers := by cases bitfield <;> rfl
@[simp] theorem load_swaps : (s.load bitfield).swaps = s.swaps := by cases bitfield <;> rfl
@[simp] theorem load_takes : (s.load bitfield).takes = s.takes := by cases bitfield <;> rfl

end Frame

/-! ## Tokens -/

variable {s : State} {t u : Nat}

/-- A token is cancelled if the table says so. -/
theorem isCancelled_iff : s.isCancelled t = true ↔ s.tokens[t]? = some true := by
  rw [isCancelled, beq_iff_eq]

/-- Cancelling a token of the session is seen at once. -/
theorem isCancelled_cancelToken_self (h : t < s.tokens.length) :
    (s.cancelToken t).isCancelled t = true := by
  rw [isCancelled_iff, cancelToken, List.getElem?_set_self h]

/-- A cancelled token stays cancelled. -/
theorem isCancelled_cancelToken (h : s.isCancelled u = true) :
    (s.cancelToken t).isCancelled u = true := by
  rw [isCancelled_iff] at h
  by_cases he : t = u
  · subst he
    exact isCancelled_cancelToken_self (List.getElem?_eq_some_iff.mp h).1
  · rw [isCancelled_iff, cancelToken, List.getElem?_set_ne he, h]

/-- A cancelled token stays cancelled. -/
theorem isCancelled_cancelInner {state : TorrentState} (h : s.isCancelled u = true) :
    (s.cancelInner state).isCancelled u = true := by
  unfold cancelInner
  split
  · exact isCancelled_cancelToken h
  · exact h

/-- The token of a state value is cancelled with it. -/
theorem isCancelled_cancelInner_token {state : TorrentState} (hs : state.token = some t)
    (h : t < s.tokens.length) : (s.cancelInner state).isCancelled t = true := by
  unfold cancelInner
  rw [hs]
  exact isCancelled_cancelToken_self h

/-- A new token leaves the others as they are. -/
theorem isCancelled_newToken (h : s.isCancelled u = true) : s.newToken.isCancelled u = true := by
  rw [isCancelled_iff] at h ⊢
  have hlt : u < s.tokens.length := (List.getElem?_eq_some_iff.mp h).1
  exact (List.getElem?_append_left hlt).trans h

end State

end Bqti.Session.Lifecycle
