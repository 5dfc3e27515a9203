import Bqti.Session.Lifecycle.Step

/-!
# Cancellation discipline

A cancelled session stays cancelled, and a worker whose token is not the token of the current
state has been told to stop: a state that is replaced or refused cancels its token when it is
dropped.
-/

namespace Bqti.Session.Lifecycle

open Bqti.Core Bqti.Torrent

variable {sha1 : Bytes → Hash20} {torrent : Metafile} {s s' : State} {l : Label}

/-- The state that a call has opened and not yet handed to `swap_state`. -/
def Pc.pending : Pc → Option TorrentState
  | .loading _ next => some next
  | .swapping next => some next
  | _ => none

/-- A token is the one of the current state or it is cancelled. -/
def State.Governed (s : State) (token : Nat) : Prop :=
  s.state.token = some token ∨ s.isCancelled token = true

/-- The tokens of a session are numbered below their count, and every token that a worker has
or is about to get is governed. -/
structure Disciplined (s : State) : Prop where
  current : ∀ t, s.state.token = some t → t < s.tokens.length
  pending : ∀ c ∈ s.calls, ∀ next t, c.pc.pending = some next → next.token = some t →
    t < s.tokens.length
  spawning : ∀ c ∈ s.calls, ∀ w, c.pc = .spawning w → s.Governed w.token
  workers : ∀ w ∈ s.workers, s.Governed w.spawn.token

/-- A session starts disciplined. -/
theorem disciplined_new (n : Nat) : Disciplined (.new n) where
  current := by simp [State.new, TorrentState.token]
  pending := by simp [State.new]
  spawning := by simp [State.new]
  workers := by simp [State.new]

/-! ## What a step does to tokens -/

/-- Taking the resources of a state keeps its token. -/
theorem takeFor_token {state rest : TorrentState} {kind : WorkerKind}
    (h : state.takeFor kind = some rest) : rest.token = state.token := by
  rcases takeFor_cases h with ⟨path, dest, resources, token, rfl, rfl, rfl⟩ |
    ⟨path, resources, token, rfl, rfl, rfl⟩
  · rfl
  · rfl

/-- No token disappears. -/
theorem Move.tokens_length_le (h : Move sha1 torrent s l s') :
    s.tokens.length ≤ s'.tokens.length := by
  cases h with
  | request target => exact le_rfl
  | call hk hcall => cases hcall <;> simp [State.newToken, State.spawnWorker]
  | work hi hwork => cases hwork <;> simp [State.request, State.take]

/-- A cancelled token stays cancelled. -/
theorem Move.isCancelled (h : Move sha1 torrent s l s') {t : Nat}
    (ht : s.isCancelled t = true) : s'.isCancelled t = true := by
  cases h with
  | request target => exact ht
  | call hk hcall =>
    cases hcall with
    | cancelInner | swap | discard => exact State.isCancelled_cancelInner (s := s) ht
    | opened => exact State.isCancelled_newToken (s := s) ht
    | load =>
      rw [State.isCancelled_iff] at ht ⊢
      simpa using ht
    | _ => exact ht
  | work hi hwork =>
    cases hwork with
    | seedNext => exact State.isCancelled_cancelToken (s := s) ht
    | _ => exact ht

/-- A step keeps the token of the state, or replaces a state and cancels its token. -/
theorem Move.token_cases (h : Move sha1 torrent s l s') :
    s'.state.token = s.state.token ∨
      ∃ k fs c next, l = .call k fs ∧ s.calls[k]? = some c ∧ c.pc = .swapping next ∧
        s.state ≠ .cancelled ∧ s' = (s.install k c.target next).setCall k c next.afterSwap := by
  cases h with
  | request target => exact Or.inl rfl
  | call hk hcall =>
    cases hcall with
    | swap hpc hlive => exact Or.inr ⟨_, _, _, _, rfl, hk, hpc, hlive, rfl⟩
    | _ => exact Or.inl (by simp [State.newToken, State.spawnWorker])
  | work hi hwork =>
    cases hwork with
    | take _ htake => exact Or.inl (takeFor_token htake)
    | _ => exact Or.inl rfl

/-- A governed token stays governed: a state that goes away cancels its token. -/
theorem Move.governed (h : Move sha1 torrent s l s')
    (hcurrent : ∀ t, s.state.token = some t → t < s.tokens.length) {t : Nat}
    (ht : s.Governed t) : s'.Governed t := by
  rcases ht with ht | ht
  · rcases h.token_cases with he | ⟨k, fs, c, next, _, _, _, _, rfl⟩
    · exact Or.inl (he.trans ht)
    · exact Or.inr (State.isCancelled_cancelInner_token ht (hcurrent t ht))
  · exact Or.inr (h.isCancelled ht)

/-- An opened state carries the token that was made for it. -/
theorem openState_token {fs : FileSystem} {metafile : Metafile} {token : Nat} {last : LastState}
    {bitfield : Option BitField} {next : TorrentState}
    (h : openState sha1 fs metafile token last = .ok (bitfield, next)) :
    next.token = some token := by
  cases last with
  | downloading dest =>
    simp only [openState] at h
    split at h
    · contradiction
    · cases h; rfl
  | seeding path =>
    simp only [openState] at h
    split at h
    · contradiction
    · contradiction
    · cases h; rfl

/-- The end of an opening without a new state is final. -/
theorem openState_error {fs : FileSystem} {metafile : Metafile} {token : Nat} {last : LastState}
    {pc : Pc} (h : openState sha1 fs metafile token last = .error pc) :
    pc = .panicked ∨ ∃ e, pc = .finished (.error e) := by
  cases last with
  | downloading dest =>
    simp only [openState] at h
    split at h
    · cases h; exact Or.inr ⟨_, rfl⟩
    · contradiction
  | seeding path =>
    simp only [openState] at h
    split at h
    · cases h; exact Or.inl rfl
    · cases h; exact Or.inr ⟨_, rfl⟩
    · contradiction

/-- What a call can find when it reads the current state. -/
theorem afterRead_cases {target : Transition} {state : TorrentState} {pc : Pc}
    (h : target.afterRead state = some pc) :
    (target = .pause ∧ pc = .swapping (.idle state.lastState)) ∨
      (∃ metafile last, target = .resume metafile ∧ state = .idle (some last) ∧
        pc = .opening metafile last) ∨
      (∃ metafile, target = .resume metafile ∧ (∀ last, state ≠ .idle (some last)) ∧
        pc = .unreachable) ∨
      (target = .cancel ∧ state = .cancelled ∧ pc = .finished (.ok ())) ∨
      (target = .cancel ∧ state ≠ .cancelled ∧ pc = .swapping .cancelled) := by
  cases target with
  | pause => exact Or.inl ⟨rfl, (Option.some.inj h).symm⟩
  | resume metafile =>
    simp only [Transition.afterRead] at h
    split at h
    · exact Or.inr (Or.inl ⟨_, _, rfl, rfl, (Option.some.inj h).symm⟩)
    · rename_i hno
      exact Or.inr (Or.inr (Or.inl ⟨_, rfl, fun last he => hno last he, (Option.some.inj h).symm⟩))
  | cancel =>
    simp only [Transition.afterRead] at h
    split at h
    · exact Or.inr (Or.inr (Or.inr (Or.inl ⟨rfl, rfl, (Option.some.inj h).symm⟩)))
    · rename_i hno
      exact Or.inr (Or.inr (Or.inr (Or.inr ⟨rfl, fun he => hno he, (Option.some.inj h).symm⟩)))
  | download metafile dest => contradiction
  | seed path metafile => contradiction

/-- A spawned worker has the token of the state it was spawned for. -/
theorem spawn_token {state : TorrentState} {worker : Spawn} (h : state.spawn = some worker) :
    state.token = some worker.token := by
  cases state <;> simp only [TorrentState.spawn, Option.some.injEq, reduceCtorEq] at h
  all_goals subst h; rfl

/-- After `swap_state` a call spawns the worker of the state it handed over, if there is one. -/
theorem afterSwap_eq_spawning {next : TorrentState} {worker : Spawn} :
    next.afterSwap = .spawning worker ↔ next.spawn = some worker := by
  unfold TorrentState.afterSwap
  split <;> simp_all

/-! ## Calls across one step -/

/-- A call that has just advanced holds the state it held before, one without a token, or one
that it opened in this step. -/
theorem Advance.pending {fs : FileSystem} {k : Nat} {c : Call} {pc : Pc} {u : State}
    (h : Advance sha1 s fs k c pc u) {next : TorrentState} (hp : pc.pending = some next) :
    c.pc.pending = some next ∨ next.token = none ∨
      (next.token = some s.tokens.length ∧ s.tokens.length < u.tokens.length) := by
  cases h with
  | refuse | guard | spawn => contradiction
  | cancelInner =>
    unfold Transition.afterCancel at hp
    split at hp <;> contradiction
  | read hpc hread =>
    rcases afterRead_cases hread with ⟨_, rfl⟩ | ⟨_, _, _, _, rfl⟩ | ⟨_, _, _, rfl⟩ |
      ⟨_, _, rfl⟩ | ⟨_, _, rfl⟩
    all_goals cases hp
    all_goals exact Or.inr (Or.inl rfl)
  | fail hpc hopen => rcases openState_error hopen with rfl | ⟨_, rfl⟩ <;> contradiction
  | opened hpc hopen =>
    cases hp
    exact Or.inr (Or.inr ⟨openState_token hopen, by simp [State.newToken]⟩)
  | load hpc => exact Or.inl (by rw [hpc]; exact hp)
  | swap | discard =>
    unfold TorrentState.afterSwap at hp
    split at hp <;> contradiction

/-- A call that is about to spawn a worker has just handed over its state, which is the current
one now or was refused and cancelled its token. -/
theorem Advance.spawning {fs : FileSystem} {k : Nat} {c : Call} {worker : Spawn} {u : State}
    (h : Advance sha1 s fs k c (.spawning worker) u) :
    ∃ next, c.pc = .swapping next ∧ next.spawn = some worker ∧
      (u.state = next ∨ (s.state = .cancelled ∧ u = s.cancelInner next)) := by
  generalize hp : Pc.spawning worker = pc at h
  cases h with
  | refuse | guard | opened | load | spawn => contradiction
  | cancelInner =>
    unfold Transition.afterCancel at hp
    split at hp <;> contradiction
  | read hpc hread =>
    rcases afterRead_cases hread with ⟨_, rfl⟩ | ⟨_, _, _, _, rfl⟩ | ⟨_, _, _, rfl⟩ |
      ⟨_, _, rfl⟩ | ⟨_, _, rfl⟩ <;> contradiction
  | fail hpc hopen => rcases openState_error hopen with rfl | ⟨_, rfl⟩ <;> contradiction
  | swap hpc hlive => exact ⟨_, hpc, afterSwap_eq_spawning.mp hp.symm, Or.inl rfl⟩
  | discard hpc hdead => exact ⟨_, hpc, afterSwap_eq_spawning.mp hp.symm, Or.inr ⟨hdead, rfl⟩⟩

/-! ## The invariant -/

/-- Every step keeps a session disciplined. -/
theorem Move.disciplined (h : Move sha1 torrent s l s') (hs : Disciplined s) :
    Disciplined s' where
  current := by
    intro t ht
    refine lt_of_lt_of_le ?_ h.tokens_length_le
    rcases h.token_cases with he | ⟨k, fs, c, next, _, hk, hpc, _, rfl⟩
    · exact hs.current t (he.symm.trans ht)
    · exact hs.pending c (List.mem_of_getElem? hk) next t (by rw [hpc]; rfl) ht
  pending := by
    intro c' hc next t hp ht
    obtain ⟨j, hj⟩ := List.getElem?_of_mem hc
    rcases h.call_origin hj with hold | ⟨_, hreq⟩ | ⟨fs, c, pc, u, _, hk, hadv, rfl, rfl⟩
    · exact lt_of_lt_of_le (hs.pending c' (List.mem_of_getElem? hold) next t hp ht)
        h.tokens_length_le
    · rw [hreq] at hp
      contradiction
    · rcases hadv.pending hp with hp' | hnone | ⟨hnew, hlt⟩
      · exact lt_of_lt_of_le (hs.pending c (List.mem_of_getElem? hk) next t hp' ht)
          h.tokens_length_le
      · rw [hnone] at ht
        contradiction
      · have he : s.tokens.length = t := Option.some.inj (hnew.symm.trans ht)
        exact he ▸ hlt
  spawning := by
    intro c' hc w hp
    obtain ⟨j, hj⟩ := List.getElem?_of_mem hc
    rcases h.call_origin hj with hold | ⟨_, hreq⟩ | ⟨fs, c, pc, u, _, hk, hadv, rfl, rfl⟩
    · exact h.governed hs.current (hs.spawning c' (List.mem_of_getElem? hold) w hp)
    · rw [hreq] at hp
      contradiction
    · cases hp
      obtain ⟨next, hpc, hw, hnext | ⟨_, rfl⟩⟩ := hadv.spawning
      · exact Or.inl (hnext ▸ spawn_token hw)
      · have hlt : w.token < s.tokens.length :=
          hs.pending c (List.mem_of_getElem? hk) next w.token (by rw [hpc]; rfl) (spawn_token hw)
        exact Or.inr (State.isCancelled_cancelInner_token (spawn_token hw) hlt)
  workers := by
    intro w' hw
    obtain ⟨j, hj⟩ := List.getElem?_of_mem hw
    rcases h.worker_origin hj with hold | ⟨_, _, k, fs, c, _, hk, hpc, _⟩ |
      ⟨w, pc, u, hi, _, _, rfl⟩
    · exact h.governed hs.current (hs.workers w' (List.mem_of_getElem? hold))
    · exact h.governed hs.current (hs.spawning c (List.mem_of_getElem? hk) _ hpc)
    · exact h.governed hs.current (hs.workers w (List.mem_of_getElem? hi))

/-- Every session that is reached is disciplined. -/
theorem run_disciplined {n : Nat} {labels : List Label}
    (h : run (step sha1 torrent) (.new n) labels = some s) : Disciplined s :=
  run_invariant (fun _ _ _ hs ha => (step_move ha).disciplined hs) (disciplined_new n) h

/-- Cancelling the token of a state value keeps the discipline. -/
theorem Disciplined.cancelInner (hs : Disciplined s) (state : TorrentState) :
    Disciplined (s.cancelInner state) := by
  have hgoverned : ∀ {t : Nat}, s.Governed t → (s.cancelInner state).Governed t := by
    rintro t (ht | ht)
    · exact Or.inl ((congrArg TorrentState.token (State.cancelInner_state s state)).trans ht)
    · exact Or.inr (State.isCancelled_cancelInner ht)
  refine ⟨fun t ht => ?_, fun c hc next t hnext ht => ?_, fun c hc w hw => ?_, fun w hw => ?_⟩
  · rw [State.cancelInner_state] at ht
    rw [State.cancelInner_tokens_length]
    exact hs.current t ht
  · rw [State.cancelInner_calls] at hc
    rw [State.cancelInner_tokens_length]
    exact hs.pending c hc next t hnext ht
  · rw [State.cancelInner_calls] at hc
    exact hgoverned (hs.spawning c hc w hw)
  · rw [State.cancelInner_workers] at hw
    exact hgoverned (hs.workers w hw)

/-- A worker keeps its token wherever it stands. -/
theorem Disciplined.setWorker (hs : Disciplined s) {i : Nat} {w : Worker}
    (hi : s.workers[i]? = some w) (pc : WorkerPc) : Disciplined (s.setWorker i w pc) where
  current := hs.current
  pending := hs.pending
  spawning := hs.spawning
  workers v hv := by
    rcases List.mem_or_eq_of_mem_set hv with hold | rfl
    · exact hs.workers v hold
    · exact hs.workers w (List.mem_of_getElem? hi)

/-! ## Cancelled for good -/

/-- Nothing can be taken from a cancelled session. -/
theorem takeFor_cancelled (kind : WorkerKind) : TorrentState.cancelled.takeFor kind = none := by
  cases kind <;> rfl

/-- No step leaves the cancelled state. -/
theorem Move.cancelled (h : Move sha1 torrent s l s') (hs : s.state = .cancelled) :
    s'.state = .cancelled := by
  cases h with
  | request target => exact hs
  | call hk hcall =>
    cases hcall with
    | swap hpc hlive => exact absurd hs hlive
    | _ => simpa [State.newToken, State.spawnWorker] using hs
  | work hi hwork =>
    cases hwork with
    | take hpc htake =>
      rw [hs, takeFor_cancelled] at htake
      contradiction
    | _ => exact hs

/-- A cancelled session stays cancelled. -/
theorem run_cancelled {labels : List Label} {t : State} (hs : s.state = .cancelled)
    (h : run (step sha1 torrent) s labels = some t) : t.state = .cancelled := by
  have hstep : ∀ (u : State) (l : Label) (u' : State), u.state = .cancelled →
      step sha1 torrent u l = some u' → u'.state = .cancelled :=
    fun u l u' hu ha => (step_move ha).cancelled hu
  have hend := run_invariant hstep hs h
  exact hend

/-- Along every interleaving of transitions and worker steps, a cancelled session stays
cancelled, and the token of every worker ever spawned is the token of the current state or is
already cancelled. -/
theorem cancellation_discipline (sha1 : Bytes → Hash20) (torrent : Metafile) (n : Nat)
    (labels : List Label) (s : State)
    (h : run (step sha1 torrent) (.new n) labels = some s) :
    (s.state = .cancelled → ∀ more t, run (step sha1 torrent) s more = some t →
      t.state = .cancelled) ∧
    ∀ w ∈ s.workers,
      s.state.token = some w.spawn.token ∨ s.isCancelled w.spawn.token = true := by
  exact ⟨fun hc more t hr => run_cancelled hc hr, (run_disciplined h).workers⟩

/-- A download is paused and cancelled while its worker has not started; the worker's token is
cancelled and nothing leaves the cancelled state. -/
theorem cancellation_discipline_sample :
    ∃ s, run (step sampleSha1 sampleTorrent) (.new 1)
        (sampleDownload ++ sampleCall 1 .pause 4 ++ sampleCall 2 .cancel 4) = some s ∧
      s.workers.length = 1 ∧ s.state = .cancelled ∧
      ((s.state = .cancelled → ∀ more t, run (step sampleSha1 sampleTorrent) s more = some t →
        t.state = .cancelled) ∧
      ∀ w ∈ s.workers,
        s.state.token = some w.spawn.token ∨ s.isCancelled w.spawn.token = true) := by
  have hrun : ((run (step sampleSha1 sampleTorrent) (.new 1)
      (sampleDownload ++ sampleCall 1 .pause 4 ++ sampleCall 2 .cancel 4)).any fun s =>
        s.workers.length = 1 ∧ s.state = .cancelled) = true := by
    decide +kernel
  obtain ⟨s, hs, hp⟩ := exists_of_any hrun
  exact ⟨s, hs, hp.1, hp.2,
    cancellation_discipline sampleSha1 sampleTorrent 1 _ s hs⟩

end Bqti.Session.Lifecycle
