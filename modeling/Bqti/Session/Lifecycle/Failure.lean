import Bqti.Session.Lifecycle.Step

/-!
# Failing transitions

A transition that runs alone is a function of the session and the file system. It is what the
steps of its call compute one after the other. The token of the current state is cancelled
before the new resources are opened, and nothing gives it back when opening fails.
-/

namespace Bqti.Session.Lifecycle

open Bqti.Core Bqti.Chunks Bqti.Torrent

variable {sha1 : Bytes → Hash20} {torrent : Metafile} {fs : FileSystem} {s : State}

/-- Open the resources of a state and install it, as `transition_downloading` and
`transition_seeding` do. -/
def transitionActive (sha1 : Bytes → Hash20) (fs : FileSystem) (s : State) (target : Transition)
    (metafile : Metafile) (last : LastState) : Pc × State :=
  match openState sha1 fs metafile s.tokens.length last with
  | .error pc => (pc, s)
  | .ok (bitfield, next) =>
      let installed := (s.newToken.load bitfield).swapState s.calls.length target next
      match next.spawn with
      | some worker => (.finished (.ok ()), installed.spawnWorker worker)
      | none => (.finished (.ok ()), installed)

/-- What `transition` does once its check has passed and the token is cancelled. -/
def proceed (sha1 : Bytes → Hash20) (fs : FileSystem) (s : State) (target : Transition) :
    Pc × State :=
  match target with
  | .download metafile dest => transitionActive sha1 fs s target metafile (.downloading dest)
  | .seed path metafile => transitionActive sha1 fs s target metafile (.seeding path)
  | .pause => (.finished (.ok ()), s.swapState s.calls.length target (.idle s.state.lastState))
  | .resume metafile =>
      match s.state with
      | .idle (some last) => transitionActive sha1 fs s target metafile last
      | _ => (.unreachable, s)
  | .cancel =>
      match s.state with
      | .cancelled => (.finished (.ok ()), s)
      | _ => (.finished (.ok ()), s.swapState s.calls.length target .cancelled)

/-- `transition` with no other task running: the point where the call ends, which holds what it
returns, and the session it leaves behind. -/
def transition (sha1 : Bytes → Hash20) (fs : FileSystem) (s : State) (target : Transition) :
    Pc × State :=
  if s.state.canTransitionTo target then proceed sha1 fs (s.cancelInner s.state) target
  else (.finished (.error (.invalidTransition target.toString)), s)

/-! ## The call's own steps -/

/-- A session to which one call at a given point was added. -/
def State.withCall (u : State) (target : Transition) (pc : Pc) : State :=
  { u with calls := u.calls ++ [⟨target, pc⟩] }

@[simp] theorem withCall_state (u : State) (target : Transition) (pc : Pc) :
    (u.withCall target pc).state = u.state := rfl

@[simp] theorem withCall_tokens (u : State) (target : Transition) (pc : Pc) :
    (u.withCall target pc).tokens = u.tokens := rfl

/-- Moving the added call. -/
theorem setCall_withCall {u : State} {k : Nat} (hk : u.calls.length = k) (target : Transition)
    (pc pc' : Pc) :
    (u.withCall target pc).setCall k ⟨target, pc⟩ pc' = u.withCall target pc' := by
  subst hk
  simp [State.withCall, State.setCall]

/-- The last call makes its step. -/
theorem step_withCall (u : State) (target : Transition) (pc : Pc) :
    step sha1 torrent (u.withCall target pc) (.call u.calls.length fs) =
      stepCall sha1 (u.withCall target pc) u.calls.length ⟨target, pc⟩ fs := by
  have hget : (u.withCall target pc).calls[u.calls.length]? = some ⟨target, pc⟩ := by
    simp [State.withCall]
  simp only [step, hget]

/-- A cancellation leaves the last call alone. -/
theorem cancelInner_withCall (u : State) (target : Transition) (pc : Pc) (state : TorrentState) :
    (u.withCall target pc).cancelInner state = (u.cancelInner state).withCall target pc := by
  unfold State.cancelInner
  split <;> rfl

/-- Loading a bit field leaves the last call alone. -/
theorem load_withCall (u : State) (target : Transition) (pc : Pc) (bitfield : Option BitField) :
    (u.withCall target pc).load bitfield = (u.load bitfield).withCall target pc := by
  cases bitfield <;> rfl

/-- Replacing the state leaves the last call alone. -/
theorem swapState_withCall (u : State) (k : Nat) (target : Transition) (pc : Pc)
    (next : TorrentState) :
    (u.withCall target pc).swapState k target next =
      (u.swapState k target next).withCall target pc := by
  unfold State.swapState
  have hstate : (u.withCall target pc).state = u.state := rfl
  rw [hstate]
  split
  · exact cancelInner_withCall u target pc next
  · simp only [State.install, cancelInner_withCall, hstate]
    rfl

@[simp] theorem swapState_calls (u : State) (k : Nat) (target : Transition)
    (next : TorrentState) : (u.swapState k target next).calls = u.calls := by
  unfold State.swapState
  split <;> simp

/-- The call alone reaches a point from another, without other tasks. -/
def Reaches (sha1 : Bytes → Hash20) (torrent : Metafile) (fs : FileSystem) (k : Nat)
    (s t : State) : Prop :=
  ∃ m, run (step sha1 torrent) s (List.replicate m (.call k fs)) = some t

/-- A call reaches where it is. -/
theorem Reaches.refl (k : Nat) (s : State) : Reaches sha1 torrent fs k s s := ⟨0, rfl⟩

/-- Prepend one step of the call. -/
theorem Reaches.head {u v t : State} {target : Transition} {pc pc' : Pc} {k : Nat}
    (hk : u.calls.length = k)
    (h : stepCall sha1 (u.withCall target pc) k ⟨target, pc⟩ fs = some (v.withCall target pc'))
    (ht : Reaches sha1 torrent fs k (v.withCall target pc') t) :
    Reaches sha1 torrent fs k (u.withCall target pc) t := by
  obtain ⟨m, hm⟩ := ht
  refine ⟨m + 1, ?_⟩
  rw [List.replicate_succ]
  refine run_cons_eq_some.mpr ⟨_, ?_, hm⟩
  rw [← hk] at h ⊢
  exact (step_withCall u target pc).trans h

/-- Opening and installing a state is what the remaining steps of the call do. -/
theorem transitionActive_reaches (u : State) (target : Transition) (metafile : Metafile)
    (last : LastState) {k : Nat} (hk : u.calls.length = k) :
    Reaches sha1 torrent fs k (u.withCall target (.opening metafile last))
      ((transitionActive sha1 fs u target metafile last).2.withCall target
        (transitionActive sha1 fs u target metafile last).1) := by
  unfold transitionActive
  split
  · rename_i pc hopen
    refine Reaches.head hk ?_ (Reaches.refl k _)
    simp only [stepCall, withCall_tokens, hopen, setCall_withCall hk]
  · rename_i bitfield next hopen
    have hopened : stepCall sha1 (u.withCall target (.opening metafile last)) k
        ⟨target, .opening metafile last⟩ fs =
        some (u.newToken.withCall target (.loading bitfield next)) := by
      simp only [stepCall, withCall_tokens, hopen]
      exact congrArg some (setCall_withCall (u := u.newToken) hk target _ _)
    have hlen : (u.newToken.load bitfield).calls.length = k := by simp [State.newToken, hk]
    have hloaded : stepCall sha1 (u.newToken.withCall target (.loading bitfield next)) k
        ⟨target, .loading bitfield next⟩ fs =
        some ((u.newToken.load bitfield).withCall target (.swapping next)) := by
      simp only [stepCall, load_withCall, setCall_withCall hlen]
    have hlen' : ((u.newToken.load bitfield).swapState k target next).calls.length = k := by
      simp [State.newToken, hk]
    have hswapped : stepCall sha1 ((u.newToken.load bitfield).withCall target (.swapping next)) k
        ⟨target, .swapping next⟩ fs =
        some (((u.newToken.load bitfield).swapState k target next).withCall target
          next.afterSwap) := by
      simp only [stepCall, swapState_withCall, setCall_withCall hlen']
    refine Reaches.head hk hopened (Reaches.head hk hloaded (Reaches.head hlen hswapped ?_))
    rw [hk]
    cases hspawn : next.spawn with
    | none =>
      simp only [TorrentState.afterSwap, hspawn]
      exact Reaches.refl k _
    | some worker =>
      simp only [TorrentState.afterSwap, hspawn]
      refine Reaches.head hlen' ?_ (Reaches.refl k _)
      simp only [stepCall]
      exact congrArg some (setCall_withCall
        (u := ((u.newToken.load bitfield).swapState k target next).spawnWorker worker) hlen'
        target _ _)

/-- A transition that runs alone is the run of its call's own steps. -/
theorem transition_reaches (target : Transition) :
    Reaches sha1 torrent fs s.calls.length (s.request target)
      ((transition sha1 fs s target).2.withCall target (transition sha1 fs s target).1) := by
  have hlen : (s.cancelInner s.state).calls.length = s.calls.length := by simp
  change Reaches sha1 torrent fs s.calls.length (s.withCall target .requested) _
  unfold transition
  split
  · rename_i hcan
    have hguard : stepCall sha1 (s.withCall target .requested) s.calls.length
        ⟨target, .requested⟩ fs = some (s.withCall target .checked) := by
      simp only [stepCall, withCall_state, if_pos hcan, setCall_withCall rfl]
    have hcancel : stepCall sha1 (s.withCall target .checked) s.calls.length
        ⟨target, .checked⟩ fs =
        some ((s.cancelInner s.state).withCall target target.afterCancel) := by
      simp only [stepCall, withCall_state, cancelInner_withCall, setCall_withCall hlen]
    refine Reaches.head rfl hguard (Reaches.head rfl hcancel ?_)
    have hread : ∀ {pc : Pc}, target.afterRead s.state = some pc →
        stepCall sha1 ((s.cancelInner s.state).withCall target .reading) s.calls.length
          ⟨target, .reading⟩ fs = some ((s.cancelInner s.state).withCall target pc) := by
      intro pc hpc
      simp only [stepCall, withCall_state, State.cancelInner_state, hpc, Option.map_some,
        setCall_withCall hlen]
    have hswap : ∀ {next : TorrentState}, next.spawn = none →
        stepCall sha1 ((s.cancelInner s.state).withCall target (.swapping next)) s.calls.length
          ⟨target, .swapping next⟩ fs =
          some (((s.cancelInner s.state).swapState s.calls.length target next).withCall target
            (.finished (.ok ()))) := by
      intro next hnone
      have hlen' : ((s.cancelInner s.state).swapState s.calls.length target next).calls.length =
          s.calls.length := by simp
      simp only [stepCall, TorrentState.afterSwap, hnone, swapState_withCall,
        setCall_withCall hlen']
    cases target with
    | download metafile dest => exact transitionActive_reaches _ _ _ _ hlen
    | seed path metafile => exact transitionActive_reaches _ _ _ _ hlen
    | pause =>
      refine Reaches.head hlen (hread rfl) (Reaches.head hlen (hswap rfl) ?_)
      simp only [proceed, State.cancelInner_state, State.cancelInner_calls]
      exact Reaches.refl _ _
    | resume metafile =>
      cases hstate : s.state with
      | idle last =>
        cases last with
        | none => rw [hstate] at hcan; contradiction
        | some last =>
          rw [← hstate]
          refine Reaches.head hlen (hread (by rw [hstate]; rfl)) ?_
          simp only [proceed, State.cancelInner_state, hstate]
          rw [hstate] at hlen
          exact transitionActive_reaches _ _ _ _ hlen
      | downloading | seeding | cancelled => rw [hstate] at hcan; contradiction
    | cancel =>
      have hlive : s.state ≠ .cancelled := by
        intro hdead
        rw [hdead] at hcan
        contradiction
      have hcancelled : Transition.cancel.afterRead s.state = some (.swapping .cancelled) := by
        cases hstate : s.state with
        | cancelled => contradiction
        | idle | downloading | seeding => rfl
      refine Reaches.head hlen (hread hcancelled) (Reaches.head hlen (hswap rfl) ?_)
      simp only [proceed, State.cancelInner_state, State.cancelInner_calls]
      exact Reaches.refl _ _
  · rename_i hcan
    refine Reaches.head rfl ?_ (Reaches.refl _ _)
    simp only [stepCall, withCall_state, if_neg hcan, setCall_withCall rfl]

/-! ## When opening the files of a seed fails -/

/-- The failures on the way to a seeding state: no cache directory, a file that does not open,
or, without a complete resume file, a piece that cannot be read back. -/
def SeedFails (fs : FileSystem) (userSpace : Path) (metafile : Metafile) : Prop :=
  match fs.ensureUploadDir userSpace metafile with
  | none => True
  | some dir =>
      (∃ file ∈ metafile.files, fs.opens (fullPath fs dir file) = false) ∨
        ((∀ file ∈ metafile.files, fs.opens (fullPath fs dir file) = true) ∧
          (∀ resume, ResumeFile.open_ fs dir metafile.infoHash = some resume →
            resume.isComplete = some false) ∧
          ∃ index < metafile.pieceHashes.length, ∃ e,
            readPiece fs.transfer
              (.seed metafile.pieceLength fs.disk (metafile.files.map (fullPath fs dir))) fs.disk
              (UInt32.ofNat index) = .error e)

/-- Verification of the opened files fails exactly when a piece cannot be read. -/
theorem verified_error_iff (resources : StateResources .seeding) (metafile : Metafile) :
    (∃ e, StateResources.verified sha1 fs resources metafile = some (.error e)) ↔
      ∃ index < metafile.pieceHashes.length, ∃ e,
        readPiece fs.transfer resources.handler fs.disk (UInt32.ofNat index) = .error e := by
  have hverify := verifyFrom_error_iff sha1 (readPiece fs.transfer resources.handler fs.disk) 0
    metafile.pieceHashes (.empty metafile.pieceHashes.length) (BitField.wellSized_empty _)
  simp only [Nat.zero_add] at hverify
  rw [← hverify, StateResources.verified, verifyPieces]
  split <;> simp_all

/-- Opening a seed fails at the three points and nowhere else. -/
theorem seed_error_iff (userSpace : Path) (metafile : Metafile) :
    (∃ e, StateResources.seed sha1 fs userSpace metafile = some (.error e)) ↔
      SeedFails fs userSpace metafile := by
  unfold StateResources.seed SeedFails SessionCache.new
  cases hdir : fs.ensureUploadDir userSpace metafile with
  | none => simp [hdir]
  | some dir =>
    simp only [hdir, Option.map_some, openSeed]
    by_cases hopens : ∀ file ∈ metafile.files, fs.opens (fullPath fs dir file) = true
    · have hall : (metafile.files.all fun file => fs.opens (fullPath fs dir file)) = true :=
        List.all_eq_true.mpr hopens
      have hno : ¬ ∃ file ∈ metafile.files, fs.opens (fullPath fs dir file) = false := by
        rintro ⟨file, hfile, hf⟩
        rw [hopens file hfile] at hf
        contradiction
      rw [if_pos hall, and_iff_right hopens]
      simp only [hno, false_or]
      cases hresume : ResumeFile.open_ fs dir metafile.infoHash with
      | none => simpa using verified_error_iff _ metafile
      | some resume =>
        simp only [Option.some.injEq, forall_eq']
        cases hcomplete : resume.isComplete with
        | none => simp
        | some complete =>
          cases complete with
          | true => simp
          | false => simpa using verified_error_iff _ metafile
    · have hall : ¬ (metafile.files.all fun file => fs.opens (fullPath fs dir file)) = true :=
        fun h => hopens (List.all_eq_true.mp h)
      rw [if_neg hall]
      simp only [hopens, false_and, or_false]
      exact iff_of_true ⟨_, rfl⟩ (by simpa using hopens)

/-! ## What a failed transition leaves behind -/

/-- The state with its paths, the bitfield and the flag of the state's token are as before. -/
structure Untouched (s s' : State) : Prop where
  state : s'.state = s.state
  bitfield : s'.bitfield = s.bitfield
  token : ∀ t, s.state.token = some t → s'.isCancelled t = s.isCancelled t

/-- A downloading session whose worker has not been told to stop. -/
def State.downloadingLive (s : State) : Prop :=
  ∃ path dest resources token, s.state = .downloading path dest resources token ∧
    s.tokens[token]? = some false

/-- A call that opens nothing successfully has only cancelled the token. -/
theorem transitionActive_error {u u' : State} {target : Transition} {metafile : Metafile}
    {last : LastState} {e : TorrentSessionError}
    (h : transitionActive sha1 fs u target metafile last = (.finished (.error e), u')) :
    u' = u := by
  unfold transitionActive at h
  split at h
  · exact (Prod.mk.inj h).2.symm
  · split at h <;> cases (Prod.mk.inj h).1

/-- The end of an opening seed call that fails. -/
theorem transitionActive_seeding_error_iff {u : State} {target : Transition}
    {metafile : Metafile} {path : Path} :
    (∃ e, (transitionActive sha1 fs u target metafile (.seeding path)).1 = .finished (.error e)) ↔
      SeedFails fs path metafile := by
  rw [← @seed_error_iff sha1 fs path metafile]
  cases hseed : StateResources.seed sha1 fs path metafile with
  | none => simp [transitionActive, openState, hseed]
  | some out =>
    cases out with
    | error e => simp [transitionActive, openState, hseed]
    | ok opened => simp [transitionActive, openState, hseed, TorrentState.spawn]

/-- A call that fails after its check has done nothing since it cancelled the token. -/
theorem proceed_error {u : State} {target : Transition} {e : TorrentSessionError}
    (h : (proceed sha1 fs u target).1 = .finished (.error e)) :
    (proceed sha1 fs u target).2 = u := by
  cases target with
  | download metafile dest => exact transitionActive_error (Prod.ext h rfl)
  | seed path metafile => exact transitionActive_error (Prod.ext h rfl)
  | pause => simp [proceed] at h
  | resume metafile =>
    simp only [proceed] at h ⊢
    split at h
    · exact transitionActive_error (Prod.ext h rfl)
    · contradiction
  | cancel =>
    simp only [proceed] at h
    split at h <;> simp at h

/-- From an active state only a seed that does not open can fail after the check. -/
theorem seed_of_proceed_error {target : Transition} {t : Nat} {e : TorrentSessionError}
    (hcan : s.state.canTransitionTo target = true) (ht : s.state.token = some t)
    (h : (proceed sha1 fs (s.cancelInner s.state) target).1 = .finished (.error e)) :
    ∃ path dest resources, s.state = .downloading path dest resources t ∧
      ∃ userSpace metafile, target = .seed userSpace metafile ∧
        SeedFails fs userSpace metafile := by
  cases target with
  | pause => simp [proceed] at h
  | cancel =>
    simp only [proceed] at h
    split at h <;> simp at h
  | download metafile dest =>
    cases hstate : s.state with
    | idle last => rw [hstate] at ht; contradiction
    | downloading | seeding | cancelled => rw [hstate] at hcan; contradiction
  | resume metafile =>
    cases hstate : s.state with
    | idle last => rw [hstate] at ht; contradiction
    | downloading | seeding | cancelled => rw [hstate] at hcan; contradiction
  | seed userSpace metafile =>
    cases hstate : s.state with
    | idle last => rw [hstate] at ht; contradiction
    | seeding | cancelled => rw [hstate] at hcan; contradiction
    | downloading path dest resources token =>
      rw [hstate] at ht
      cases ht
      exact ⟨path, dest, resources, rfl, userSpace, metafile, rfl,
        transitionActive_seeding_error_iff.mp ⟨e, h⟩⟩

/-- A failing transition leaves the session as it was, except exactly when seeding is asked of
a downloading session whose worker still runs and the files of the seed do not open: then the
worker has been told to stop. -/
theorem failed_transition_untouched_iff (sha1 : Bytes → Hash20) (fs : FileSystem) (s : State)
    (target : Transition) :
    (∀ e, (transition sha1 fs s target).1 = .finished (.error e) →
      Untouched s (transition sha1 fs s target).2) ↔
    ¬ (s.downloadingLive ∧ ∃ userSpace metafile, target = .seed userSpace metafile ∧
      SeedFails fs userSpace metafile) := by
  constructor
  · rintro hall ⟨⟨path, dest, resources, token, hstate, hlive⟩, userSpace, metafile, rfl, hfails⟩
    have hcan : s.state.canTransitionTo (.seed userSpace metafile) = true := by rw [hstate]; rfl
    have htoken : s.state.token = some token := by rw [hstate]; rfl
    rw [transition, if_pos hcan] at hall
    obtain ⟨e, he⟩ : ∃ e, (proceed sha1 fs (s.cancelInner s.state) (.seed userSpace metafile)).1 =
        .finished (.error e) := transitionActive_seeding_error_iff.mpr hfails
    have hflag := (hall e he).token token htoken
    rw [proceed_error he] at hflag
    have hlt : token < s.tokens.length := (List.getElem?_eq_some_iff.mp hlive).1
    have hstop := State.isCancelled_cancelInner_token htoken hlt
    rw [hflag, State.isCancelled, hlive] at hstop
    contradiction
  · intro hno e he
    by_cases hcan : s.state.canTransitionTo target = true
    · rw [transition, if_pos hcan] at he ⊢
      rw [proceed_error he]
      refine ⟨State.cancelInner_state s s.state, State.cancelInner_bitfield s s.state, ?_⟩
      intro t ht
      obtain ⟨path, dest, resources, hstate, hseed⟩ := seed_of_proceed_error hcan ht he
      -- the token was cancelled already, or it is not one of the session's tokens
      have hdead : s.tokens[t]? ≠ some false :=
        fun hlive => hno ⟨⟨path, dest, resources, t, hstate, hlive⟩, hseed⟩
      have hset : s.tokens.set t true = s.tokens := by
        cases hget : s.tokens[t]? with
        | none => exact List.set_eq_of_length_le (List.getElem?_eq_none_iff.mp hget)
        | some flag =>
          cases flag with
          | false => exact absurd hget hdead
          | true =>
            obtain ⟨hlt, he⟩ := List.getElem?_eq_some_iff.mp hget
            rw [← he]
            exact List.set_getElem_self hlt
      simp only [State.cancelInner, ht, State.cancelToken, State.isCancelled, hset]
    · rw [transition, if_neg hcan]
      exact ⟨rfl, rfl, fun _ _ => rfl⟩

/-- A downloading session whose worker runs. -/
def sampleDownloading : State :=
  { State.new 1 with
    state := .downloading ['/', 'd'] ['/', 'h'] none 0
    tokens := [false]
    workers := [⟨⟨.downloader, 0, ['/', 'd']⟩, .looping⟩] }

/-- Seeding from a directory for which no cache directory can be made: the call fails and the
downloader has been told to stop. -/
theorem failed_seed_stops_downloader :
    let fs := { sampleFiles none with ensureUploadDir := fun _ _ => none }
    let out := transition sampleSha1 fs sampleDownloading (.seed ['/', 'd'] sampleTorrent)
    out.1 = .finished (.error .unableToFindXDGFolder) ∧ out.2.state = sampleDownloading.state ∧
      ¬ Untouched sampleDownloading out.2 := by
  refine ⟨rfl, rfl, fun h => ?_⟩
  have hflag := h.token 0 rfl
  contradiction

end Bqti.Session.Lifecycle
