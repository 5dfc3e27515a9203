import Bqti.Session.Lifecycle.Cancellation
import Bqti.Session.Removal.Tables

/-!
# When a removal is final

A removal cancels no token by itself and deletes one directory at most. The state right before
the purge decides whether the session is stopped and forgotten, and calls that are still under
way may undo it later.
-/

namespace Bqti.Session.Removal

open Bqti.Core Bqti.Torrent
open Bqti.Session.Cache (Entry Sections RemoveOutcome loadFromCache)
open Bqti.Session.Lifecycle (State TorrentState)
open Bqti.Session.Routing (SessionManager)

/-! ## Dropping the session -/

section Settle

variable {A : Type*} (n : Node A)

@[simp] theorem settle_tables : n.settle.tables = n.tables := by unfold Node.settle; split <;> rfl
@[simp] theorem settle_disk : n.settle.disk = n.disk := by unfold Node.settle; split <;> rfl
@[simp] theorem settle_phase : n.settle.phase = n.phase := by unfold Node.settle; split <;> rfl
@[simp] theorem settle_state : n.settle.session.state = n.session.state := by
  unfold Node.settle; split <;> simp

variable {n} {t : Nat}

/-- A cancelled token stays cancelled. -/
theorem isCancelled_settle (ht : n.session.isCancelled t = true) :
    n.settle.session.isCancelled t = true := by
  unfold Node.settle
  split
  · exact ht
  · exact State.isCancelled_cancelInner ht

/-- The token of the state is cancelled after a step if it was, or if nobody holds the session
any more. -/
theorem isCancelled_settle_iff (hs : Lifecycle.Disciplined n.session)
    (ht : n.session.state.token = some t) :
    n.settle.session.isCancelled t = true ↔ n.session.isCancelled t = true ∨ n.held = false := by
  unfold Node.settle
  split
  case isTrue hheld => simp [hheld]
  case isFalse hheld =>
    refine iff_of_true (State.isCancelled_cancelInner_token ht (hs.current t ht)) (Or.inr ?_)
    exact eq_false_of_ne_true hheld

/-- Settling keeps a session disciplined. -/
theorem disciplined_settle (hs : Lifecycle.Disciplined n.session) :
    Lifecycle.Disciplined n.settle.session := by
  unfold Node.settle
  split
  · exact hs
  · exact hs.cancelInner n.session.state

end Settle

/-! ## The invariant -/

section Sound

variable {A : Type*} {w : Setting} {n n' : Node A} {me : Nat}

/-- The tokens of the session are in order and so are the tables. -/
structure Sound (w : Setting) (n : Node A) : Prop where
  disciplined : Lifecycle.Disciplined n.session
  tabled : Tabled w n.tables n.phase

/-- A node starts sound. -/
theorem sound_new (w : Setting) (pieceCount : Nat) (disk : Sections) :
    Sound w (Node.new pieceCount disk : Node A) where
  disciplined := Lifecycle.disciplined_new pieceCount
  tabled := by
    refine ⟨?_, ?_, ?_, ?_⟩
    · simp [Node.new]
    · simp [Node.new]
    · simp [Node.new]
    · simp [Node.new]

/-- Settling keeps a node sound. -/
theorem Sound.settle (hs : Sound w n) : Sound w n.settle where
  disciplined := disciplined_settle hs.disciplined
  tabled := by
    rw [settle_tables, settle_phase]
    exact hs.tabled

/-- A restart finds the torrent in some directory. -/
def Cached (w : Setting) (disk : Sections) : Prop :=
  ∃ entry ∈ disk.entries, entry.caches w.codec w.hash = true

/-- What is left to show of a removed session: every token of a worker is that of the state or
cancelled, and the tables are in order anyway. -/
theorem Sound.final_iff (hs : Sound w n) (hp : n.phase = .removed me) :
    Final w n me ↔
      (∀ t ∈ n.session.state.token, n.session.isCancelled t = true) ∧ ¬ Cached w n.disk := by
  have hcache : (∀ mode ∈ loadFromCache w.codec n.disk, mode.metafile.infoHash ≠ w.hash) ↔
      ¬ Cached w n.disk := by
    rw [Cached, ← Cache.cached_iff]
    simp only [not_exists, not_and, ne_eq]
  obtain ⟨_, hhash, hpeer⟩ := hs.tabled.gone me (Or.inr hp)
  constructor
  · intro hf
    exact ⟨hf.state, hcache.mp hf.cache⟩
  · rintro ⟨hstate, hfree⟩
    refine ⟨hstate, fun v hv => ?_, hhash, hpeer, hcache.mpr hfree⟩
    rcases hs.disciplined.workers v hv with hown | hcancelled
    · exact hstate _ hown
    · exact hcancelled

/-- A removed session is gone for good exactly if its token is cancelled and nothing is cached. -/
theorem Sound.removedForGood_iff (hs : Sound w n) (hp : n.phase = .removed me) :
    RemovedForGood w n ↔
      (∀ t ∈ n.session.state.token, n.session.isCancelled t = true) ∧ ¬ Cached w n.disk := by
  rw [← hs.final_iff hp]
  constructor
  · exact fun h => h me hp
  · intro hf session hsession
    have he : me = session := by simpa using hp.symm.trans hsession
    exact he ▸ hf

/-- A phase that is no removal is not the removed one. -/
theorem isRemoved_eq_false {phase : Phase} (h : ¬ ∃ me, phase = .removed me) :
    phase.isRemoved = false := by
  cases phase with
  | removed me => exact absurd ⟨me, rfl⟩ h
  | _ => rfl

/-- Before it is removed, a session has nothing to be gone for. -/
theorem removedForGood_of_not_removed (hp : n.phase.isRemoved = false) : RemovedForGood w n := by
  intro session hsession
  simp [hsession, Phase.isRemoved] at hp

/-- A step that keeps the token of the state, cancels no less and caches no more. -/
theorem RemovedForGood.keep (hn : RemovedForGood w n) (hs : Sound w n) (hs' : Sound w n')
    (hphase : n'.phase = n.phase) (hstate : n'.session.state.token = n.session.state.token)
    (hcancel : ∀ t, n.session.isCancelled t = true → n'.session.isCancelled t = true)
    (hcache : Cached w n'.disk → Cached w n.disk) : RemovedForGood w n' := by
  intro session hsession
  have hold := hphase.symm.trans hsession
  obtain ⟨htoken, hfree⟩ := (hs.removedForGood_iff hold).mp hn
  refine (hs'.final_iff hsession).mpr ⟨fun t ht => ?_, fun hc => hfree (hcache hc)⟩
  exact hcancel t (htoken t (hstate ▸ ht))

/-- The directories that cache the torrent after `purge`. -/
theorem not_cached_purge {outcome : RemoveOutcome} {disk : Sections} {state : TorrentState} :
    ¬ Cached w (purge disk state outcome) ↔
      ∀ entry ∈ disk.entries, entry.caches w.codec w.hash = true →
        purgePath state = some entry.path ∧ outcome.erases = true := by
  unfold purge
  cases purgePath state with
  | none => simp [Cached]
  | some path =>
    rw [Cached, Cache.cached_removeDirAll]
    constructor
    · intro hfree entry he hc
      by_contra hkept
      exact hfree ⟨entry, he, hc, fun hpath => hkept ⟨congrArg some hpath.1.symm, hpath.2⟩⟩
    · rintro hall ⟨entry, he, hc, hkept⟩
      obtain ⟨hpath, herases⟩ := hall entry he hc
      exact hkept ⟨(Option.some.inj hpath).symm, herases⟩

/-- The purge makes the removal final exactly under its condition. -/
theorem Sound.purge {outcome : RemoveOutcome} (hs : Sound w n) (hp : n.phase = .unlisted me)
    (hn' : n' = Node.settle { n with
      disk := purge n.disk n.session.state outcome, phase := .removed me }) :
    Sound w n' ∧ (RemovedForGood w n' ↔ Clean w n (.purge outcome)) := by
  subst hn'
  have hmid : Sound w { n with
      disk := purge n.disk n.session.state outcome, phase := .removed me } :=
    ⟨hs.disciplined, (hp ▸ hs.tabled).purge⟩
  refine ⟨hmid.settle, ?_⟩
  rw [hmid.settle.removedForGood_iff (settle_phase _), settle_disk, settle_state, Clean]
  refine and_congr ?_ not_cached_purge
  refine forall₂_congr fun t ht => ?_
  exact isCancelled_settle_iff (n := { n with
    disk := Removal.purge n.disk n.session.state outcome, phase := .removed me }) hs.disciplined ht

/-! ## Steps of the session -/

/-- What a step of the session leaves in the cache. -/
theorem cached_persistTorrent {saves : Bool} {l : Lifecycle.Label} :
    Cached w (persistTorrent w n saves l) ↔
      Cached w n.disk ∨ ((writesAt w n saves l).isSome = true ∧ w.reloads = true) := by
  have hfree : ∀ place ∈ writesAt w n saves l, n.disk.holdsTorrent place.2 = false := by
    intro place hplace
    cases l with
    | call k fs =>
      obtain ⟨_, hguard⟩ := Option.filter_eq_some_iff.mp hplace
      simp only [Bool.and_eq_true, Bool.not_eq_true'] at hguard
      exact hguard.2
    | _ => contradiction
  unfold persistTorrent
  cases hw : writesAt w n saves l with
  | none => simp
  | some place =>
    obtain ⟨kind, path⟩ := place
    simp only [Option.isSome_some, true_and]
    exact Cache.cached_writeTorrent (hfree (kind, path) hw)

/-- A state is put in the place of the current one by a call that has it ready. -/
theorem installs_eq_some_iff {s : State} {l : Lifecycle.Label} {next : TorrentState} :
    installs s l = some next ↔ ∃ k fs c, l = .call k fs ∧ s.calls[k]? = some c ∧
      c.pc = .swapping next ∧ s.state ≠ .cancelled := by
  constructor
  · intro h
    unfold installs at h
    split at h
    case h_1 k fs =>
      split at h
      case h_1 => contradiction
      case h_2 c hk =>
        split at h
        case h_1 hpc =>
          split at h
          case isTrue => contradiction
          case isFalse hlive =>
            exact ⟨k, fs, c, rfl, hk, Option.some.inj h ▸ hpc, hlive⟩
        case h_2 => contradiction
    case h_2 => contradiction
  · rintro ⟨k, fs, c, rfl, hk, hpc, hlive⟩
    simp only [installs, hk, hpc, if_neg hlive]

/-- The session after a call has put its state in place. -/
theorem step_of_installs {s s' : State} {l : Lifecycle.Label} {next : TorrentState}
    (hi : installs s l = some next)
    (h : Lifecycle.step w.sha1 w.metafile s (w.anchorLabel l) = some s') :
    ∃ k c, s.calls[k]? = some c ∧
      s' = (s.install k c.target next).setCall k c next.afterSwap := by
  obtain ⟨k, fs, c, rfl, hk, hpc, hlive⟩ := installs_eq_some_iff.mp hi
  refine ⟨k, c, hk, ?_⟩
  simp only [Setting.anchorLabel, Lifecycle.step, hk, Lifecycle.stepCall, hpc,
    Lifecycle.swapState_of_ne k c.target next hlive] at h
  exact (Option.some.inj h).symm

/-- Every other step keeps the token of the state. -/
theorem token_of_installs_eq_none {s s' : State} {l : Lifecycle.Label}
    (hi : installs s l = none)
    (h : Lifecycle.step w.sha1 w.metafile s (w.anchorLabel l) = some s') :
    s'.state.token = s.state.token := by
  rcases (Lifecycle.step_move h).token_cases with hsame | ⟨k, fs, c, next, hl, hk, hpc, hlive, _⟩
  · exact hsame
  · cases l with
    | call k' fs' =>
      have he : k' = k := (Lifecycle.Label.call.inj hl).1
      subst he
      have hsome := installs_eq_some_iff.mpr ⟨k', fs', c, rfl, hk, hpc, hlive⟩
      rw [hi] at hsome
      contradiction
    | _ => contradiction

/-- Dropping a state whose token is cancelled changes nothing. -/
theorem cancelInner_of_cancelled {s : State}
    (h : ∀ t ∈ s.state.token, s.isCancelled t = true) : s.cancelInner s.state = s := by
  unfold State.cancelInner
  cases ht : s.state.token with
  | none => rfl
  | some t =>
    have hset : s.tokens.set t true = s.tokens := by
      have hget := State.isCancelled_iff.mp (h t ht)
      obtain ⟨hlt, hval⟩ := List.getElem?_eq_some_iff.mp hget
      rw [← hval, List.set_getElem_self]
    simp only [State.cancelToken, hset]

/-- A call that has put an active state in place still has to spawn the worker, so that the
session is held. -/
theorem held_of_install {s : State} {k : Nat} {c : Lifecycle.Call} {next : TorrentState} {t : Nat}
    (hk : s.calls[k]? = some c) (ht : next.token = some t)
    (hn : n.session = (s.install k c.target next).setCall k c next.afterSwap) :
    n.held = true := by
  have hmem : ({ c with pc := next.afterSwap } : Lifecycle.Call) ∈ n.session.calls := by
    rw [hn, State.setCall_calls, State.install_calls]
    exact List.mem_set (List.getElem?_eq_some_iff.mp hk).1 _
  have hopen : next.afterSwap.over = false := by
    cases next with
    | idle last => contradiction
    | cancelled => contradiction
    | downloading path dest resources token => rfl
    | seeding path resources token => rfl
  have hany : (n.session.calls.any fun c => !c.pc.over) = true :=
    List.any_eq_true.mpr ⟨_, hmem, by simp [hopen]⟩
  simp [Node.held, Node.heldElsewhere, hany]

/-- After the removal a step keeps the token of the state cancelled exactly when it puts no state
with a living token in place. -/
theorem tokens_settle_iff {s : State} {l : Lifecycle.Label} {disk : Sections}
    (hs : Lifecycle.Disciplined s)
    (hcancelled : ∀ t ∈ n.session.state.token, n.session.isCancelled t = true)
    (h : Lifecycle.step w.sha1 w.metafile n.session (w.anchorLabel l) = some s) :
    (∀ t ∈ s.state.token,
      (Node.settle { n with session := s, disk := disk }).session.isCancelled t = true) ↔
      ∀ next ∈ installs n.session l, ∀ t ∈ next.token, n.session.isCancelled t = true := by
  cases hi : installs n.session l with
  | none =>
    refine iff_of_true (fun t ht => ?_) (by simp)
    rw [token_of_installs_eq_none hi h] at ht
    exact isCancelled_settle (n := { n with session := s, disk := disk })
      ((Lifecycle.step_move h).isCancelled (hcancelled t ht))
  | some next =>
    obtain ⟨k, c, hk, rfl⟩ := step_of_installs hi h
    have hsame : n.session.cancelInner n.session.state = n.session :=
      cancelInner_of_cancelled hcancelled
    have htokens : ∀ t, ((n.session.install k c.target next).setCall k c
        next.afterSwap).isCancelled t = n.session.isCancelled t := by
      intro t
      rw [State.isCancelled, State.isCancelled, State.setCall_tokens, State.install_tokens, hsame]
    simp only [Option.mem_def, Option.some.injEq, forall_eq']
    refine forall₂_congr fun t ht => ?_
    have hheld := held_of_install (n := { n with
      session := (n.session.install k c.target next).setCall k c next.afterSwap
      disk := disk }) hk ht rfl
    rw [isCancelled_settle_iff hs ht, hheld, htokens]
    simp

/-- After the removal a step of the session keeps it final exactly under its condition. -/
theorem Sound.session {l : Lifecycle.Label} {saves : Bool} {s : State} (hs : Sound w n)
    (hn : RemovedForGood w n)
    (h : Lifecycle.step w.sha1 w.metafile n.session (w.anchorLabel l) = some s)
    (hn' : n' = Node.settle { n with session := s, disk := persistTorrent w n saves l }) :
    Sound w n' ∧ (RemovedForGood w n' ↔ Clean w n (.session l saves)) := by
  subst hn'
  have hdisciplined : Lifecycle.Disciplined s :=
    (Lifecycle.step_move h).disciplined hs.disciplined
  have hmid : Sound w { n with session := s, disk := persistTorrent w n saves l } :=
    ⟨hdisciplined, hs.tabled⟩
  refine ⟨hmid.settle, ?_⟩
  by_cases hremoved : ∃ me, n.phase = .removed me
  · obtain ⟨me, hp⟩ := hremoved
    obtain ⟨hcancelled, hfree⟩ := (hs.removedForGood_iff hp).mp hn
    rw [hmid.settle.removedForGood_iff ((settle_phase _).trans hp), settle_disk, settle_state,
      tokens_settle_iff hdisciplined hcancelled h, cached_persistTorrent]
    simp only [Clean, hp, Phase.isRemoved, hfree, false_or, not_and, Bool.not_eq_true,
      true_implies]
    exact and_comm
  · have hp : n.phase.isRemoved = false := isRemoved_eq_false hremoved
    refine iff_of_true (removedForGood_of_not_removed ?_) ?_
    · rw [settle_phase]
      exact hp
    · intro htrue
      rw [hp] at htrue
      contradiction

/-- A worker that starts after the session was dropped only stops. -/
theorem Sound.startDropped {l : Lifecycle.Label} {saves : Bool} (hs : Sound w n)
    (hn : RemovedForGood w n) (h : startDropped n l = some n') :
    Sound w n' ∧ (RemovedForGood w n' ↔ Clean w n (.session l saves)) := by
  cases l with
  | start i =>
    simp only [Removal.startDropped] at h
    split at h
    case h_1 => contradiction
    case h_2 v hi =>
      split at h
      case isTrue =>
        have he := Option.some.inj h
        subst he
        have hs' : Sound w { n with session := n.session.setWorker i v .stopped } :=
          ⟨hs.disciplined.setWorker hi .stopped, hs.tabled⟩
        refine ⟨hs', iff_of_true (hn.keep hs hs' rfl rfl (fun _ ht => ht) id) ?_⟩
        simp [Clean, writesAt, installs]
      case isFalse => contradiction
  | _ => contradiction

/-- A step of the session keeps a removal final exactly if the step is clean. -/
theorem stepSession_spec {l : Lifecycle.Label} {saves : Bool} (hs : Sound w n)
    (hn : RemovedForGood w n) (h : stepSession w n l saves = some n') :
    Sound w n' ∧ (RemovedForGood w n' ↔ Clean w n (.session l saves)) := by
  unfold stepSession at h
  split at h
  case isTrue =>
    split at h
    case isTrue =>
      split at h
      case h_1 => contradiction
      case h_2 s hstep => exact hs.session hn hstep (Option.some.inj h).symm
    case isFalse => contradiction
  case isFalse => exact hs.startDropped hn h

/-- A change of the disk that leaves the directories of the torrent alone. -/
theorem cached_of_filter_eq {disk disk' : Sections}
    (h : disk'.entries.filter (Entry.caches w.codec w.hash) =
      disk.entries.filter (Entry.caches w.codec w.hash)) (hc : Cached w disk') : Cached w disk := by
  obtain ⟨entry, he, hentry⟩ := hc
  have hmem : entry ∈ disk.entries.filter (Entry.caches w.codec w.hash) :=
    h ▸ List.mem_filter.mpr ⟨he, hentry⟩
  exact ⟨entry, (List.mem_filter.mp hmem).1, hentry⟩

/-- Every step keeps the invariant, and keeps a removal final exactly when it is clean. -/
theorem step_spec [DecidableEq A] {a : Label A} (hs : Sound w n) (hn : RemovedForGood w n)
    (h : step w n a = some n') : Sound w n' ∧ (RemovedForGood w n' ↔ Clean w n a) := by
  have hkeep : Sound w n' → n'.phase = n.phase →
      n'.session.state.token = n.session.state.token →
      (∀ t, n.session.isCancelled t = true → n'.session.isCancelled t = true) →
      (Cached w n'.disk → Cached w n.disk) → Clean w n a →
      Sound w n' ∧ (RemovedForGood w n' ↔ Clean w n a) :=
    fun hs' hphase hstate hcancel hcache hclean =>
      ⟨hs', iff_of_true (hn.keep hs hs' hphase hstate hcancel hcache) hclean⟩
  have hsame : ∀ {tables : SessionManager A} {handlers : Nat} {discovery : Discovery},
      Tabled w tables n.phase →
      n' = { n with tables := tables, handlers := handlers, discovery := discovery } →
      Clean w n a → Sound w n' ∧ (RemovedForGood w n' ↔ Clean w n a) := by
    rintro tables handlers discovery htabled rfl hclean
    exact hkeep ⟨hs.disciplined, htabled⟩ rfl rfl (fun _ ht => ht) id hclean
  cases a with
  | session l saves => exact stepSession_spec hs hn h
  | launch =>
    simp only [step, Option.ite_none_right_eq_some, Option.some.injEq] at h
    exact hsame hs.tabled h.2.symm trivial
  | register =>
    simp only [step, Option.ite_none_right_eq_some, Option.some.injEq] at h
    obtain ⟨hguard, rfl⟩ := h
    refine ⟨⟨hs.disciplined, (hguard.1 ▸ hs.tabled).register⟩, iff_of_true ?_ trivial⟩
    exact removedForGood_of_not_removed rfl
  | discover =>
    simp only [step, Option.ite_none_right_eq_some, Option.some.injEq] at h
    exact hsame hs.tabled h.2.symm trivial
  | dispatch message source =>
    exact hsame (hs.tabled.dispatch message source) (Option.some.inj h).symm trivial
  | hold =>
    simp only [step, Option.ite_none_right_eq_some, Option.some.injEq] at h
    exact hsame hs.tabled h.2.symm trivial
  | finish =>
    simp only [step, Option.ite_none_right_eq_some, Option.some.injEq] at h
    obtain ⟨_, rfl⟩ := h
    have hmid : Sound w { n with handlers := n.handlers - 1 } := ⟨hs.disciplined, hs.tabled⟩
    refine hkeep hmid.settle (settle_phase _) ?_ (fun _ ht => ?_) (fun hc => ?_) trivial
    · exact congrArg TorrentState.token (settle_state _)
    · exact isCancelled_settle (n := { n with handlers := n.handlers - 1 }) ht
    · rwa [settle_disk] at hc
  | insert g =>
    simp only [step, Option.ite_none_right_eq_some, Option.some.injEq] at h
    exact hsame (hs.tabled.insert h.1) h.2.symm trivial
  | remove g =>
    simp only [step, Option.ite_none_right_eq_some, Option.some.injEq] at h
    exact hsame (hs.tabled.remove h.1) h.2.symm trivial
  | environment disk =>
    simp only [step, Option.ite_none_right_eq_some, Option.some.injEq] at h
    obtain ⟨hdisk, rfl⟩ := h
    exact hkeep ⟨hs.disciplined, hs.tabled⟩ rfl rfl (fun _ ht => ht) (cached_of_filter_eq hdisk)
      trivial
  | unlist =>
    simp only [step] at h
    split at h
    case h_1 session hp =>
      obtain rfl := Option.some.inj h
      refine ⟨⟨hs.disciplined, (hp ▸ hs.tabled).unlist⟩, iff_of_true ?_ trivial⟩
      exact removedForGood_of_not_removed rfl
    case h_2 => contradiction
  | purge outcome =>
    simp only [step] at h
    split at h
    case h_1 session hp => exact hs.purge hp (Option.some.inj h).symm
    case h_2 => contradiction

end Sound

/-- In every run of a node, wherever its session stands when it is removed: from the return of
`remove` on the tokens of the session are cancelled, no table refers to it and a restart does
not find its torrent, exactly when the purge and all later steps of the session are clean. -/
theorem removed_for_good_iff {A : Type*} [DecidableEq A] (w : Setting) (pieceCount : Nat)
    (disk : Sections) (labels : List (Label A)) (last : Node A)
    (h : run (step w) (.new pieceCount disk) labels = some last) :
    (∀ pre post n, labels = pre ++ post → run (step w) (.new pieceCount disk) pre = some n →
      RemovedForGood w n) ↔ Along (step w) (Clean w) (.new pieceCount disk) labels := by
  have hgood : ∀ n : Node A, Sound w n ∧ RemovedForGood w n → RemovedForGood w n := fun _ hn => hn.2
  refine forall_reached_iff_along hgood (fun n a n' hn hstep => ?_)
    ⟨sound_new w pieceCount disk, removedForGood_of_not_removed rfl⟩ h
  obtain ⟨hs', hiff⟩ := step_spec hn.1 hn.2 hstep
  exact ⟨hiff, fun hp => ⟨hs', hp⟩⟩

/-! ## A removed download and a removed seed -/

/-- A torrent of one file with three bytes. -/
def sampleSetting : Setting where
  tree := noTree
  sha1 := Sha1.digest
  sha256 := Sha256.digest
  home := ['/', 'd']
  torrent := .v1 (sampleTorrent (some 1))

/-- No directories. -/
def noSections : Sections := ⟨none, none⟩

/-- A step of a call on a file system that refuses nothing. -/
def sampleCall (k : Nat) : Label Nat := .session (.call k (Lifecycle.sampleFiles none)) true

/-- A download is created and entered in the table. -/
def sampleAdded : List (Label Nat) :=
  .session (.request (.download sampleSetting.metafile ['/', 'h'])) true ::
    List.replicate 6 (sampleCall 0) ++ [.launch, .register]

/-- The download is removed before its worker and the discovery have started. -/
def removedAtOnce : List (Label Nat) :=
  sampleAdded ++ [.unlist, .purge .removed, .discover, .session (.start 0) true]

/-- A session that is removed at once is gone for good. -/
theorem removed_for_good_iff_atOnce :
    ∃ last, run (step sampleSetting) (.new 1 noSections) removedAtOnce = some last ∧
      last.phase = .removed 0 ∧ Final sampleSetting last 0 := by
  have hrun : (run (step sampleSetting) (.new 1 noSections) removedAtOnce).map (·.phase) =
      some (.removed 0) := by decide +kernel
  obtain ⟨last, hlast, hphase⟩ := Option.map_eq_some_iff.mp hrun
  exact ⟨last, hlast, hphase, (removed_for_good_iff sampleSetting 1 noSections removedAtOnce last
    hlast).mpr (by decide +kernel) removedAtOnce [] last (List.append_nil _).symm hlast 0 hphase⟩

/-- The download is completed and seeds when it is removed. -/
def removedWhileSeeding : List (Label Nat) :=
  sampleAdded ++ [.discover, .session (.start 0) true, .session (.leave 0 .done) true,
    .session (.check 0) true, .session (.conclude 0) true] ++
    List.replicate 6 (sampleCall 1) ++ [.session (.start 1) true, .unlist, .purge .removed]

/-- The seeder goes on with a living token, and a restart finds the torrent among the
downloads. -/
theorem seed_survives_removal :
    ∃ last, run (step sampleSetting) (.new 1 noSections) removedWhileSeeding = some last ∧
      last.phase = .removed 0 ∧ last.session.state.token = some 1 ∧
      last.session.isCancelled 1 = false ∧
      (∃ mode ∈ loadFromCache sampleSetting.codec last.disk,
        mode.metafile.infoHash = sampleSetting.hash) ∧
      ¬ Final sampleSetting last 0 := by
  have hrun : ((run (step sampleSetting) (.new 1 noSections) removedWhileSeeding).any fun n =>
      decide (n.phase = .removed 0 ∧ n.session.state.token = some 1 ∧
        n.session.isCancelled 1 = false ∧ ∃ entry ∈ n.disk.entries,
          entry.caches sampleSetting.codec sampleSetting.hash = true)) = true := by
    decide +kernel
  obtain ⟨last, hlast, hphase, htoken, hliving, hcached⟩ := exists_of_any hrun
  refine ⟨last, hlast, hphase, htoken, hliving, Cache.cached_iff.mpr hcached, fun hfinal => ?_⟩
  have hcancelled := hfinal.state 1 htoken
  exact Bool.false_ne_true (hliving.symm.trans hcancelled)

end Bqti.Session.Removal
