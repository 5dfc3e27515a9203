import Bqti.Session.Download.State
import Bqti.Session.Lifecycle.State

/-!
# Steps of a session

A label names the task that moves and carries what the surroundings decide: the file system
that an opening call finds and the reason for which a worker leaves its loop. Every
interleaving of calls and workers is a list of labels. `Move` says once what each label can do
to a session, and every invariant is proved from it.
-/

namespace Bqti.Session.Lifecycle

open Bqti.Core Bqti.Chunks Bqti.Torrent
open Bqti.Session.Download (ExitReason)

/-- The steps of a session. -/
inductive Label
  | request (target : Transition)
  | call (k : Nat) (fs : FileSystem)
  | start (i : Nat)
  | leave (i : Nat) (reason : ExitReason)
  | check (i : Nat)
  | conclude (i : Nat)

/-- Where a call goes once it has cancelled the token of the current state. -/
def Transition.afterCancel : Transition → Pc
  | .download metafile dest => .opening metafile (.downloading dest)
  | .seed path metafile => .opening metafile (.seeding path)
  | .pause | .resume _ | .cancel => .reading

/-- What a call reads of the current state before it goes on. -/
def Transition.afterRead (state : TorrentState) : Transition → Option Pc
  | .pause => some (.swapping (.idle state.lastState))
  | .resume metafile =>
      match state with
      | .idle (some last) => some (.opening metafile last)
      | _ => some .unreachable
  | .cancel =>
      match state with
      | .cancelled => some (.finished (.ok ()))
      | _ => some (.swapping .cancelled)
  | .download _ _ | .seed _ _ => none

/-- What opening the resources of a state gives a call: an end without a new state, or the
bitfield to load and the state to install under a token. -/
def openState (sha1 : Bytes → Hash20) (fs : FileSystem) (metafile : Metafile) (token : Nat) :
    LastState → Except Pc (Option BitField × TorrentState)
  | .downloading dest =>
      match StateResources.download fs metafile with
      | .error e => .error (.finished (.error e))
      | .ok resources =>
          .ok (resources.cache.resume.map ResumeFile.getBitfield,
            .downloading resources.cache.dir dest (some resources) token)
  | .seeding path =>
      match StateResources.seed sha1 fs path metafile with
      | none => .error .panicked
      | some (.error e) => .error (.finished (.error e))
      | some (.ok (resources, bitfield)) =>
          .ok (some bitfield, .seeding resources.cache.dir (some resources) token)

/-- Where a call goes after `swap_state`. -/
def TorrentState.afterSwap (next : TorrentState) : Pc :=
  match next.spawn with
  | some worker => .spawning worker
  | none => .finished (.ok ())

/-- One step of a call of `transition`. -/
def stepCall (sha1 : Bytes → Hash20) (s : State) (k : Nat) (c : Call) (fs : FileSystem) :
    Option State :=
  match c.pc with
  | .requested =>
      if s.state.canTransitionTo c.target then some (s.setCall k c .checked)
      else some (s.setCall k c (.finished (.error (.invalidTransition c.target.toString))))
  | .checked => some ((s.cancelInner s.state).setCall k c c.target.afterCancel)
  | .reading => (c.target.afterRead s.state).map (s.setCall k c)
  | .opening metafile last =>
      match openState sha1 fs metafile s.tokens.length last with
      | .error pc => some (s.setCall k c pc)
      | .ok (bitfield, next) =>
          some (s.newToken.setCall k c (.loading bitfield next))
  | .loading bitfield next => some ((s.load bitfield).setCall k c (.swapping next))
  | .swapping next => some ((s.swapState k c.target next).setCall k c next.afterSwap)
  | .spawning worker => some ((s.spawnWorker worker).setCall k c (.finished (.ok ())))
  | .finished _ | .unreachable | .panicked => none

/-- The state that is left when a worker of a kind has taken the resources. -/
def TorrentState.takeFor (state : TorrentState) : WorkerKind → Option TorrentState
  | .downloader => state.takeDownloading.map Prod.snd
  | .seeder => state.takeSeeding.map Prod.snd

/-- A worker takes from a state of its own kind that has its resources, and leaves it without
them. -/
theorem takeFor_cases {state rest : TorrentState} {kind : WorkerKind}
    (h : state.takeFor kind = some rest) :
    (∃ path dest resources token, kind = .downloader ∧
      state = .downloading path dest (some resources) token ∧
      rest = .downloading path dest none token) ∨
    ∃ path resources token, kind = .seeder ∧ state = .seeding path (some resources) token ∧
      rest = .seeding path none token := by
  cases kind with
  | downloader =>
    obtain ⟨⟨_, _⟩, ht, rfl⟩ := Option.map_eq_some_iff.mp h
    unfold TorrentState.takeDownloading at ht
    split at ht
    · cases ht
      exact Or.inl ⟨_, _, _, _, rfl, rfl, rfl⟩
    · contradiction
  | seeder =>
    obtain ⟨⟨_, _⟩, ht, rfl⟩ := Option.map_eq_some_iff.mp h
    unfold TorrentState.takeSeeding at ht
    split at ht
    · cases ht
      exact Or.inr ⟨_, _, _, rfl, rfl, rfl⟩
    · contradiction

/-- The start of a worker: it takes the resources of whatever state is current, or stops. -/
def stepStart (s : State) (i : Nat) (w : Worker) : State :=
  match s.state.takeFor w.spawn.kind with
  | none => s.setWorker i w .stopped
  | some rest => (s.take w.spawn rest).setWorker i w .looping

/-- Whether a worker may leave its loop for a reason. The done signal exists only for a
downloader, and a channel closes when the state that holds its sender is gone. -/
def canLeave (s : State) (w : Worker) : ExitReason → Bool
  | .cancelled => s.isCancelled w.spawn.token
  | .done => w.spawn.kind = .downloader
  | .closed => s.state.token ≠ some w.spawn.token

/-- The end of a worker that was not cancelled: a downloader cancels its own token and asks
for seeding, a seeder asks for a pause. -/
def stepConclude (torrent : Metafile) (s : State) (i : Nat) (w : Worker) : State :=
  match w.spawn.kind with
  | .downloader =>
      ((s.cancelToken w.spawn.token).setWorker i w .stopped).request
        (.seed w.spawn.directory torrent)
  | .seeder => (s.setWorker i w .stopped).request .pause

/-- One step of a session. -/
def step (sha1 : Bytes → Hash20) (torrent : Metafile) (s : State) : Label → Option State
  | .request target => some (s.request target)
  | .call k fs =>
      match s.calls[k]? with
      | some c => stepCall sha1 s k c fs
      | none => none
  | .start i =>
      match s.workers[i]? with
      | some w => if w.pc = .spawned then some (stepStart s i w) else none
      | none => none
  | .leave i reason =>
      match s.workers[i]? with
      | some w =>
          if w.pc = .looping ∧ canLeave s w reason then some (s.setWorker i w .left) else none
      | none => none
  | .check i =>
      match s.workers[i]? with
      | some w =>
          if w.pc = .left then
            some (s.setWorker i w (if s.isCancelled w.spawn.token then .stopped else .concluding))
          else none
      | none => none
  | .conclude i =>
      match s.workers[i]? with
      | some w => if w.pc = .concluding then some (stepConclude torrent s i w) else none
      | none => none

/-! ## What a step can do -/

/-- What a step of a call can do: the point it reaches, and the session apart from that
point. -/
inductive Advance (sha1 : Bytes → Hash20) (s : State) (fs : FileSystem) (k : Nat) (c : Call) :
    Pc → State → Prop
  | refuse (hpc : c.pc = .requested) (hcan : s.state.canTransitionTo c.target = false) :
      Advance sha1 s fs k c (.finished (.error (.invalidTransition c.target.toString))) s
  | guard (hpc : c.pc = .requested) (hcan : s.state.canTransitionTo c.target = true) :
      Advance sha1 s fs k c .checked s
  | cancelInner (hpc : c.pc = .checked) :
      Advance sha1 s fs k c c.target.afterCancel (s.cancelInner s.state)
  | read {pc : Pc} (hpc : c.pc = .reading) (hread : c.target.afterRead s.state = some pc) :
      Advance sha1 s fs k c pc s
  | fail {metafile : Metafile} {last : LastState} {pc : Pc} (hpc : c.pc = .opening metafile last)
      (hopen : openState sha1 fs metafile s.tokens.length last = .error pc) :
      Advance sha1 s fs k c pc s
  | opened {metafile : Metafile} {last : LastState} {bitfield : Option BitField}
      {next : TorrentState} (hpc : c.pc = .opening metafile last)
      (hopen : openState sha1 fs metafile s.tokens.length last = .ok (bitfield, next)) :
      Advance sha1 s fs k c (.loading bitfield next) s.newToken
  | load {bitfield : Option BitField} {next : TorrentState} (hpc : c.pc = .loading bitfield next) :
      Advance sha1 s fs k c (.swapping next) (s.load bitfield)
  | swap {next : TorrentState} (hpc : c.pc = .swapping next) (hlive : s.state ≠ .cancelled) :
      Advance sha1 s fs k c next.afterSwap (s.install k c.target next)
  | discard {next : TorrentState} (hpc : c.pc = .swapping next) (hdead : s.state = .cancelled) :
      Advance sha1 s fs k c next.afterSwap (s.cancelInner next)
  | spawn {worker : Spawn} (hpc : c.pc = .spawning worker) :
      Advance sha1 s fs k c (.finished (.ok ())) (s.spawnWorker worker)

/-- What a step of a worker can do: the point it reaches, and the session apart from that
point. -/
inductive Work (torrent : Metafile) (s : State) (i : Nat) (w : Worker) :
    Label → WorkerPc → State → Prop
  | take {rest : TorrentState} (hpc : w.pc = .spawned)
      (htake : s.state.takeFor w.spawn.kind = some rest) :
      Work torrent s i w (.start i) .looping (s.take w.spawn rest)
  | miss (hpc : w.pc = .spawned) (htake : s.state.takeFor w.spawn.kind = none) :
      Work torrent s i w (.start i) .stopped s
  | leave (reason : ExitReason) (hpc : w.pc = .looping) (hleave : canLeave s w reason = true) :
      Work torrent s i w (.leave i reason) .left s
  | stop (hpc : w.pc = .left) (hcancelled : s.isCancelled w.spawn.token = true) :
      Work torrent s i w (.check i) .stopped s
  | goOn (hpc : w.pc = .left) (hcancelled : s.isCancelled w.spawn.token = false) :
      Work torrent s i w (.check i) .concluding s
  | seedNext (hpc : w.pc = .concluding) (hkind : w.spawn.kind = .downloader) :
      Work torrent s i w (.conclude i) .stopped
        ((s.cancelToken w.spawn.token).request (.seed w.spawn.directory torrent))
  | pauseNext (hpc : w.pc = .concluding) (hkind : w.spawn.kind = .seeder) :
      Work torrent s i w (.conclude i) .stopped (s.request .pause)

/-- What a label can do to a session. -/
inductive Move (sha1 : Bytes → Hash20) (torrent : Metafile) (s : State) : Label → State → Prop
  | request (target : Transition) : Move sha1 torrent s (.request target) (s.request target)
  | call {k : Nat} {c : Call} {fs : FileSystem} {pc : Pc} {u : State}
      (hk : s.calls[k]? = some c) (hcall : Advance sha1 s fs k c pc u) :
      Move sha1 torrent s (.call k fs) (u.setCall k c pc)
  | work {i : Nat} {w : Worker} {l : Label} {pc : WorkerPc} {u : State}
      (hi : s.workers[i]? = some w) (hwork : Work torrent s i w l pc u) :
      Move sha1 torrent s l (u.setWorker i w pc)

/-- Replacing the state, with the two cases of `swap_state` apart. -/
theorem swapState_of_ne {s : State} (k : Nat) (target : Transition) (next : TorrentState)
    (h : s.state ≠ .cancelled) : s.swapState k target next = s.install k target next := by
  unfold State.swapState
  split
  · contradiction
  · rfl

/-- A session that is over is not replaced any more. -/
theorem swapState_of_eq {s : State} (k : Nat) (target : Transition) (next : TorrentState)
    (h : s.state = .cancelled) : s.swapState k target next = s.cancelInner next := by
  rw [State.swapState, h]

/-- Every step of a call advances it. -/
theorem stepCall_advance {sha1 : Bytes → Hash20} {s s' : State} {k : Nat} {c : Call}
    {fs : FileSystem} (h : stepCall sha1 s k c fs = some s') :
    ∃ pc u, Advance sha1 s fs k c pc u ∧ s' = u.setCall k c pc := by
  unfold stepCall at h
  split at h
  case h_1 hpc =>
    split at h
    case isTrue hcan => exact ⟨_, _, .guard hpc hcan, (Option.some.inj h).symm⟩
    case isFalse hcan =>
      exact ⟨_, _, .refuse hpc (by simpa using hcan), (Option.some.inj h).symm⟩
  case h_2 hpc => exact ⟨_, _, .cancelInner hpc, (Option.some.inj h).symm⟩
  case h_3 hpc =>
    obtain ⟨pc, hread, rfl⟩ := Option.map_eq_some_iff.mp h
    exact ⟨_, _, .read hpc hread, rfl⟩
  case h_4 hpc =>
    split at h
    case h_1 hopen => exact ⟨_, _, .fail hpc hopen, (Option.some.inj h).symm⟩
    case h_2 hopen => exact ⟨_, _, .opened hpc hopen, (Option.some.inj h).symm⟩
  case h_5 hpc => exact ⟨_, _, .load hpc, (Option.some.inj h).symm⟩
  case h_6 next hpc =>
    by_cases hdead : s.state = .cancelled
    · rw [swapState_of_eq k c.target next hdead] at h
      exact ⟨_, _, .discard hpc hdead, (Option.some.inj h).symm⟩
    · rw [swapState_of_ne k c.target next hdead] at h
      exact ⟨_, _, .swap hpc hdead, (Option.some.inj h).symm⟩
  case h_7 hpc => exact ⟨_, _, .spawn hpc, (Option.some.inj h).symm⟩
  all_goals contradiction

/-- Every step is a move. -/
theorem step_move {sha1 : Bytes → Hash20} {torrent : Metafile} {s s' : State} {l : Label}
    (h : step sha1 torrent s l = some s') : Move sha1 torrent s l s' := by
  cases l with
  | request target => exact Option.some.inj h ▸ .request target
  | call k fs =>
    simp only [step] at h
    split at h
    · obtain ⟨pc, u, hadv, rfl⟩ := stepCall_advance h
      exact .call ‹_› hadv
    · contradiction
  | start i =>
    simp only [step, stepStart] at h
    split at h
    · split at h
      · cases htake : s.state.takeFor _ with
        | none =>
          rw [htake] at h
          exact Option.some.inj h ▸ .work ‹_› (.miss ‹_› htake)
        | some rest =>
          rw [htake] at h
          exact Option.some.inj h ▸ .work ‹_› (.take ‹_› htake)
      · contradiction
    · contradiction
  | leave i reason =>
    simp only [step] at h
    split at h
    · split at h
      · rename_i hguard
        exact Option.some.inj h ▸ .work ‹_› (.leave reason hguard.1 hguard.2)
      · contradiction
    · contradiction
  | check i =>
    simp only [step] at h
    split at h
    · split at h
      · rename_i w hi hpc
        cases hcancelled : s.isCancelled w.spawn.token with
        | true =>
          rw [hcancelled] at h
          exact Option.some.inj h ▸ .work hi (.stop hpc hcancelled)
        | false =>
          rw [hcancelled] at h
          exact Option.some.inj h ▸ .work hi (.goOn hpc hcancelled)
      · contradiction
    · contradiction
  | conclude i =>
    simp only [step, stepConclude] at h
    split at h
    · split at h
      · rename_i w hi hpc
        cases hkind : w.spawn.kind with
        | downloader =>
          rw [hkind] at h
          exact Option.some.inj h ▸ .work hi (.seedNext hpc hkind)
        | seeder =>
          rw [hkind] at h
          exact Option.some.inj h ▸ .work hi (.pauseNext hpc hkind)
      · contradiction
    · contradiction

/-! ## Calls and workers across one step -/

section Origins

variable {sha1 : Bytes → Hash20} {torrent : Metafile} {s s' u : State} {l : Label}
  {fs : FileSystem} {k i j : Nat} {c c' : Call} {w w' : Worker} {pc : Pc} {wpc : WorkerPc}

/-- A call changes no call but itself. -/
theorem Advance.calls (h : Advance sha1 s fs k c pc u) : u.calls = s.calls := by
  cases h <;> simp [State.newToken, State.spawnWorker]

/-- A worker changes no worker but itself. -/
theorem Work.workers (h : Work torrent s i w l wpc u) : u.workers = s.workers := by
  cases h <;> rfl

/-- A call after a step is as it was, was just requested, or has advanced. -/
theorem Move.call_origin (h : Move sha1 torrent s l s') (hj : s'.calls[j]? = some c') :
    s.calls[j]? = some c' ∨ (s.calls[j]? = none ∧ c'.pc = .requested) ∨
      ∃ fs c pc u, l = .call j fs ∧ s.calls[j]? = some c ∧ Advance sha1 s fs j c pc u ∧
        s' = u.setCall j c pc ∧ c' = { c with pc := pc } := by
  have hnew : ∀ {target : Transition}, (s.calls ++ [⟨target, .requested⟩])[j]? = some c' →
      s.calls[j]? = some c' ∨ (s.calls[j]? = none ∧ c'.pc = .requested) := by
    intro target hmem
    rcases of_getElem?_concat hmem with hold | ⟨rfl, rfl⟩
    · exact Or.inl hold
    · exact Or.inr ⟨List.getElem?_eq_none le_rfl, rfl⟩
  cases h with
  | request target => exact (hnew hj).imp_right Or.inl
  | call hk hcall =>
    rw [State.setCall_calls, hcall.calls] at hj
    rcases of_getElem?_set hj with ⟨rfl, rfl⟩ | ⟨_, hold⟩
    · exact Or.inr (Or.inr ⟨_, _, _, _, rfl, hk, hcall, rfl, rfl⟩)
    · exact Or.inl hold
  | work hi hwork =>
    cases hwork with
    | seedNext | pauseNext => exact (hnew hj).imp_right Or.inl
    | _ => exact Or.inl hj

/-- What becomes of a call: it is left alone or advances. -/
theorem Move.call_next (h : Move sha1 torrent s l s') (hj : s.calls[j]? = some c) :
    s'.calls[j]? = some c ∨
      ∃ fs pc u, l = .call j fs ∧ Advance sha1 s fs j c pc u ∧ s' = u.setCall j c pc ∧
        s'.calls[j]? = some { c with pc := pc } := by
  have hlt : j < s.calls.length := (List.getElem?_eq_some_iff.mp hj).1
  cases h with
  | request target => exact Or.inl ((List.getElem?_append_left hlt).trans hj)
  | call hk hcall =>
    rename_i k d fs pc u
    have hcalls : (u.setCall k d pc).calls = s.calls.set k { d with pc := pc } := by
      rw [State.setCall_calls, hcall.calls]
    rw [hcalls]
    rcases getElem?_set_cases { d with pc := pc } hk hj with ⟨rfl, rfl, hset⟩ | ⟨_, hset⟩
    · exact Or.inr ⟨_, _, _, rfl, hcall, rfl, hset⟩
    · exact Or.inl hset
  | work hi hwork =>
    cases hwork with
    | seedNext | pauseNext => exact Or.inl ((List.getElem?_append_left hlt).trans hj)
    | _ => exact Or.inl hj

/-- What becomes of a worker: it is left alone or works. -/
theorem Move.worker_next (h : Move sha1 torrent s l s') (hj : s.workers[j]? = some w) :
    s'.workers[j]? = some w ∨
      ∃ pc u, Work torrent s j w l pc u ∧ s' = u.setWorker j w pc ∧
        s'.workers[j]? = some { w with pc := pc } := by
  have hlt : j < s.workers.length := (List.getElem?_eq_some_iff.mp hj).1
  cases h with
  | request target => exact Or.inl hj
  | call hk hcall =>
    cases hcall with
    | spawn hpc => exact Or.inl ((List.getElem?_append_left hlt).trans hj)
    | _ => exact Or.inl (by simpa [State.newToken] using hj)
  | work hi hwork =>
    rename_i i v pc u
    have hworkers : (u.setWorker i v pc).workers = s.workers.set i { v with pc := pc } := by
      rw [State.setWorker_workers, hwork.workers]
    rw [hworkers]
    rcases getElem?_set_cases { v with pc := pc } hi hj with ⟨rfl, rfl, hset⟩ | ⟨_, hset⟩
    · exact Or.inr ⟨_, _, hwork, rfl, hset⟩
    · exact Or.inl hset

/-- A worker after a step is as it was, was just spawned, or has worked. -/
theorem Move.worker_origin (h : Move sha1 torrent s l s') (hj : s'.workers[j]? = some w') :
    s.workers[j]? = some w' ∨
      (s.workers[j]? = none ∧ w'.pc = .spawned ∧
        ∃ k fs c, l = .call k fs ∧ s.calls[k]? = some c ∧ c.pc = .spawning w'.spawn ∧
          s' = (s.spawnWorker w'.spawn).setCall k c (.finished (.ok ()))) ∨
      ∃ w pc u, s.workers[j]? = some w ∧ Work torrent s j w l pc u ∧
        s' = u.setWorker j w pc ∧ w' = { w with pc := pc } := by
  cases h with
  | request target => exact Or.inl hj
  | call hk hcall =>
    cases hcall with
    | spawn hpc =>
      rcases of_getElem?_concat hj with hold | ⟨rfl, rfl⟩
      · exact Or.inl hold
      · exact Or.inr (Or.inl ⟨List.getElem?_eq_none le_rfl, rfl, _, _, _, rfl, hk, hpc, rfl⟩)
    | _ => exact Or.inl (by simpa [State.newToken] using hj)
  | work hi hwork =>
    rw [State.setWorker_workers, hwork.workers] at hj
    rcases of_getElem?_set hj with ⟨rfl, rfl⟩ | ⟨_, hold⟩
    · exact Or.inr (Or.inr ⟨_, _, _, hi, hwork, rfl, rfl⟩)
    · exact Or.inl hold

end Origins

/-! ## A torrent of one byte -/

/-- The digest of the single byte `a`. -/
def sampleSha1 : Bytes → Hash20 := fun _ =>
  #v[0x86, 0xf7, 0xe4, 0x37, 0xfa, 0xa5, 0xa7, 0xfc, 0xe1, 0x5d, 0x1d, 0xdc, 0xb9, 0xea, 0xea,
    0xea, 0x37, 0x76, 0x67, 0xb8]

/-- One file with one piece. -/
def sampleTorrent : Metafile :=
  ⟨List.replicate 20 1, 16384, [⟨1, ["x"], none⟩], [(sampleSha1 []).toList]⟩

/-- A file system that refuses nothing and holds the given resume file. -/
def sampleFiles (resume : Option ResumeFile) : FileSystem where
  ensureDownloadDir _ := some ['/', 'd']
  ensureUploadDir _ _ := some ['/', 'u']
  readResume _ := resume
  isFile _ := false
  allocates _ := true
  opens _ := true
  disk _ := [0x61]
  transfer := .full

/-- Ask for a transition and let the call make a number of steps. -/
def sampleCall (k : Nat) (target : Transition) (steps : Nat) : List Label :=
  .request target :: List.replicate steps (.call k (sampleFiles none))

/-- A whole download call, which spawns the downloader and does not start it. -/
def sampleDownload : List Label := sampleCall 0 (.download sampleTorrent ['/', 'h']) 6

end Bqti.Session.Lifecycle
