import Bqti.Session.Lifecycle.Edges

/-!
# Workers and the states they serve

A spawned worker takes its resources from whatever state is current when it starts. It finds
its own state there as long as no state of its kind is installed while an earlier worker of
that kind has still to start. A state is then left without a worker only when a transition
fails after it has stopped the worker.
-/

namespace Bqti.Session.Lifecycle

open Bqti.Core Bqti.Torrent

variable {sha1 : Bytes → Hash20} {torrent : Metafile} {s s' : State} {l : Label}

/-! ## Workers that have not started -/

/-- The worker that a call is about to spawn. -/
def Call.waiting (c : Call) : List Spawn :=
  match c.pc with
  | .spawning worker => [worker]
  | _ => []

/-- A worker that has not started. -/
def Worker.waiting (w : Worker) : List Spawn := if w.pc = .spawned then [w.spawn] else []

namespace State

/-- The workers whose state was installed and that have not started. -/
def waiting (s : State) : List Spawn :=
  s.calls.flatMap Call.waiting ++ s.workers.flatMap Worker.waiting

/-- Those of one kind. -/
def waitingOf (s : State) (kind : WorkerKind) : List Spawn :=
  s.waiting.filter fun worker => worker.kind = kind

/-- Every worker that was spawned or is about to be. -/
def given (s : State) : List Spawn := s.calls.flatMap Call.waiting ++ s.workers.map Worker.spawn

end State

/-- The resources are still there to be taken. -/
def TorrentState.hasResources : TorrentState → Bool
  | .downloading _ _ resources _ => resources.isSome
  | .seeding _ resources _ => resources.isSome
  | .idle _ | .cancelled => false

/-- The worker of a state keeps it, without the resources it has taken. -/
theorem takeFor_eq_some {state rest : TorrentState} {kind : WorkerKind}
    (h : state.takeFor kind = some rest) :
    ∃ worker, state.spawn = some worker ∧ worker.kind = kind ∧ state.hasResources = true ∧
      rest.spawn = some worker ∧ rest.hasResources = false := by
  rcases takeFor_cases h with ⟨path, dest, resources, token, rfl, rfl, rfl⟩ |
    ⟨path, resources, token, rfl, rfl, rfl⟩
  · exact ⟨_, rfl, rfl, rfl, rfl, rfl⟩
  · exact ⟨_, rfl, rfl, rfl, rfl, rfl⟩

/-- A worker of the state's kind finds the resources that are there. -/
theorem takeFor_ne_none {state : TorrentState} {worker : Spawn}
    (h : state.spawn = some worker) (hr : state.hasResources = true) :
    state.takeFor worker.kind ≠ none := by
  cases state with
  | idle last => contradiction
  | cancelled => contradiction
  | downloading path dest resources token =>
    obtain ⟨r, rfl⟩ := Option.isSome_iff_exists.mp hr
    cases h
    exact nofun
  | seeding path resources token =>
    obtain ⟨r, rfl⟩ := Option.isSome_iff_exists.mp hr
    cases h
    exact nofun

/-- The worker of a state is fixed by its token, its kind and its path. -/
theorem token_eq_spawn_token (state : TorrentState) :
    state.token = state.spawn.map Spawn.token := by
  cases state <;> rfl

/-! ## The two conditions -/

/-- No state of a kind is installed while a worker of that kind has still to start. -/
def startsInTime (s : State) : Label → Bool
  | .call k _ =>
      match s.calls[k]? with
      | some ⟨_, .swapping next⟩ =>
          s.state == .cancelled || next.spawn.all fun worker => (s.waitingOf worker.kind).isEmpty
      | _ => true
  | _ => true

/-- The call ends in this step without a new state: its resources do not open, or it does not
find the session paused. -/
def endsWithout (sha1 : Bytes → Hash20) (s : State) (c : Call) (fs : FileSystem) : Bool :=
  match c.pc with
  | .opening metafile last =>
      match openState sha1 fs metafile s.tokens.length last with
      | .error _ => true
      | .ok _ => false
  | .reading => c.target.afterRead s.state == some .unreachable
  | _ => false

/-- A call ends without a new state only while the worker of the current state has not been
told to stop. -/
def failsQuietly (sha1 : Bytes → Hash20) (s : State) : Label → Bool
  | .call k fs =>
      match s.calls[k]? with
      | some c => !endsWithout sha1 s c fs || s.state.token.all fun t => !s.isCancelled t
      | none => true
  | _ => true

/-! ## Waiting workers across one step -/

/-- A call that moves on changes only its own worker among those that wait. -/
theorem waiting_setCall {u : State} {k : Nat} {c : Call} (hk : u.calls[k]? = some c) (pc : Pc) :
    (c.waiting ++ (u.setCall k c pc).waiting).Perm
      (Call.waiting { c with pc := pc } ++ u.waiting) := by
  simp only [State.waiting, State.setCall_calls, State.setCall_workers, ← List.append_assoc]
  exact (perm_flatMap_set Call.waiting hk).append_right _

/-- A worker that moves on changes only itself among those that wait. -/
theorem waiting_setWorker {u : State} {i : Nat} {w : Worker} (hi : u.workers[i]? = some w)
    (pc : WorkerPc) :
    (w.waiting ++ (u.setWorker i w pc).waiting).Perm
      (Worker.waiting { w with pc := pc } ++ u.waiting) := by
  simp only [State.waiting, State.setWorker_calls, State.setWorker_workers]
  exact (List.perm_append_comm_assoc _ _ _).trans
    (((perm_flatMap_set Worker.waiting hi).append_left _).trans (List.perm_append_comm_assoc _ _ _))

/-- What a call adds to the waiting workers by moving. -/
theorem waiting_afterSwap (c : Call) (next : TorrentState) :
    Call.waiting { c with pc := next.afterSwap } = next.spawn.toList := by
  unfold TorrentState.afterSwap Call.waiting
  cases next.spawn <;> rfl

/-- Only a call that hands over a state is about to spawn a worker afterwards. -/
theorem Advance.waiting_eq_nil {fs : FileSystem} {k : Nat} {c : Call} {pc : Pc} {u : State}
    (h : Advance sha1 s fs k c pc u) (hc : ∀ next, c.pc ≠ .swapping next) :
    Call.waiting { c with pc := pc } = [] := by
  unfold Call.waiting
  split
  · rename_i worker hp
    simp only at hp
    subst hp
    obtain ⟨next, hn, _⟩ := h.spawning
    exact absurd hn (hc next)
  · rfl

/-- The state and the waiting workers across one step: a state is installed or refused, which
adds its worker; a worker starts and finds resources or not; or nothing changes. -/
theorem Move.state_origin (h : Move sha1 torrent s l s') :
    (∃ k fs c next, l = .call k fs ∧ s.calls[k]? = some c ∧ c.pc = .swapping next ∧
      s.state ≠ .cancelled ∧ s' = (s.install k c.target next).setCall k c next.afterSwap ∧
      s'.waiting.Perm (next.spawn.toList ++ s.waiting)) ∨
    (s.state = .cancelled ∧ s'.state = .cancelled ∧ s'.takes = s.takes) ∨
    (∃ i w rest, l = .start i ∧ s.workers[i]? = some w ∧ w.pc = .spawned ∧
      s.state.takeFor w.spawn.kind = some rest ∧
      s' = (s.take w.spawn rest).setWorker i w .looping ∧
      (w.spawn :: s'.waiting).Perm s.waiting) ∨
    (∃ i w, l = .start i ∧ s.workers[i]? = some w ∧ w.pc = .spawned ∧
      s.state.takeFor w.spawn.kind = none ∧ s' = s.setWorker i w .stopped ∧
      (w.spawn :: s'.waiting).Perm s.waiting) ∨
    (s'.state = s.state ∧ s'.takes = s.takes ∧ s'.waiting.Perm s.waiting ∧
      ∀ k fs c next, l = .call k fs → s.calls[k]? = some c → c.pc ≠ .swapping next) := by
  have hrequest : ∀ (u : State) (target : Transition), (u.request target).waiting = u.waiting := by
    intro u target
    simp [State.waiting, State.request, Call.waiting]
  cases h with
  | request target =>
    exact Or.inr (Or.inr (Or.inr (Or.inr ⟨rfl, rfl, by rw [hrequest],
      fun _ _ _ _ hl => by cases hl⟩)))
  | call hk hcall =>
    rename_i k c fs pc u
    have hu := waiting_setCall (hcall.calls ▸ hk) pc
    have hadv := hcall
    have hnot : (∀ next, c.pc ≠ .swapping next) → ∀ k' fs' c' next,
        Label.call k fs = .call k' fs' → s.calls[k']? = some c' → c'.pc ≠ .swapping next := by
      intro hpc k' fs' c' next hl hk'
      cases hl
      rw [← Option.some.inj (hk.symm.trans hk')]
      exact hpc next
    cases hcall with
    | swap hpc hlive =>
      have hc : c.waiting = [] := by simp [Call.waiting, hpc]
      refine Or.inl ⟨k, fs, c, _, rfl, hk, hpc, hlive, rfl, ?_⟩
      rw [hc, List.nil_append, waiting_afterSwap] at hu
      simpa [State.waiting] using hu
    | discard hpc hdead => exact Or.inr (Or.inl ⟨hdead, by simpa using hdead, by simp⟩)
    | spawn hpc =>
      rename_i worker
      refine Or.inr (Or.inr (Or.inr (Or.inr ⟨rfl, rfl, ?_, hnot (by simp [hpc])⟩)))
      have hc : c.waiting = [worker] := by simp [Call.waiting, hpc]
      have hw : (s.spawnWorker worker).waiting = s.waiting ++ [worker] := by
        simp [State.waiting, State.spawnWorker, Worker.waiting]
      have hnone : Call.waiting { c with pc := .finished (.ok ()) } = [] := rfl
      rw [hc, hw, hnone, List.nil_append] at hu
      exact (List.perm_cons worker).mp (hu.trans List.perm_append_comm)
    | refuse hpc | guard hpc | cancelInner hpc | read hpc | fail hpc | opened hpc | load hpc =>
      have hc : c.waiting = [] := by simp [Call.waiting, hpc]
      have hnone := hadv.waiting_eq_nil (by simp [hpc])
      refine Or.inr (Or.inr (Or.inr (Or.inr ⟨by simp [State.newToken], by simp [State.newToken], ?_,
        hnot (by simp [hpc])⟩)))
      rw [hc, hnone] at hu
      simpa [State.waiting, State.newToken] using hu
  | work hi hwork =>
    rename_i i w pc u
    have hu := waiting_setWorker (hwork.workers ▸ hi) pc
    cases hwork with
    | take hpc htake =>
      have hw : w.waiting = [w.spawn] := by simp [Worker.waiting, hpc]
      rw [hw] at hu
      exact Or.inr (Or.inr (Or.inl ⟨i, w, _, rfl, hi, hpc, htake, rfl, hu⟩))
    | miss hpc htake =>
      have hw : w.waiting = [w.spawn] := by simp [Worker.waiting, hpc]
      rw [hw] at hu
      exact Or.inr (Or.inr (Or.inr (Or.inl ⟨i, w, rfl, hi, hpc, htake, rfl, hu⟩)))
    | leave _ hpc | stop hpc | goOn hpc | seedNext hpc | pauseNext hpc =>
      have hw : w.waiting = [] := by simp [Worker.waiting, hpc]
      refine Or.inr (Or.inr (Or.inr (Or.inr ⟨rfl, rfl, ?_, fun _ _ _ _ hl => by cases hl⟩)))
      rw [hw] at hu
      first | exact hu | rwa [hrequest] at hu

/-! ## States and tokens across one step -/

/-- Without a replacement the worker that the state belongs to stays the same. -/
theorem Move.spawn_cases (h : Move sha1 torrent s l s') :
    s'.state.spawn = s.state.spawn ∨
      ∃ k fs c next, l = .call k fs ∧ s.calls[k]? = some c ∧ c.pc = .swapping next ∧
        s.state ≠ .cancelled ∧ s' = (s.install k c.target next).setCall k c next.afterSwap := by
  rcases h.state_origin with ⟨k, fs, c, next, hl, hk, hpc, hlive, he, _⟩ | ⟨hs, hs', _⟩ |
    ⟨i, w, rest, _, _, _, htake, rfl, _⟩ | ⟨i, w, _, _, _, _, rfl, _⟩ | ⟨hsame, _, _, _⟩
  · exact Or.inr ⟨k, fs, c, next, hl, hk, hpc, hlive, he⟩
  · exact Or.inl (by rw [hs, hs'])
  · obtain ⟨worker, hstate, _, _, hrest, _⟩ := takeFor_eq_some htake
    exact Or.inl (hrest.trans hstate.symm)
  · exact Or.inl rfl
  · exact Or.inl (by rw [hsame])

/-- A worker is new when its state was just handed over. -/
theorem Move.given_cases (h : Move sha1 torrent s l s') {v : Spawn} (hv : v ∈ s'.given) :
    v ∈ s.given ∨
      ∃ k fs c next, l = .call k fs ∧ s.calls[k]? = some c ∧ c.pc = .swapping next ∧
        next.spawn = some v := by
  rcases List.mem_append.mp hv with hv | hv
  · obtain ⟨c', hc', hmem⟩ := List.mem_flatMap.mp hv
    obtain ⟨j, hj⟩ := List.getElem?_of_mem hc'
    have hp : c'.pc = .spawning v := by
      unfold Call.waiting at hmem
      split at hmem
      · rw [List.mem_singleton.mp hmem]
        assumption
      · contradiction
    rcases h.call_origin hj with hold | ⟨_, hreq⟩ | ⟨fs, c, pc, u, hl, hk, hadv, _, rfl⟩
    · exact Or.inl (List.mem_append_left _
        (List.mem_flatMap.mpr ⟨c', List.mem_of_getElem? hold, hmem⟩))
    · rw [hreq] at hp
      contradiction
    · cases hp
      obtain ⟨next, hpc, hspawn, _⟩ := hadv.spawning
      exact Or.inr ⟨j, fs, c, next, hl, hk, hpc, hspawn⟩
  · obtain ⟨w', hw', rfl⟩ := List.mem_map.mp hv
    obtain ⟨j, hj⟩ := List.getElem?_of_mem hw'
    rcases h.worker_origin hj with hold | ⟨_, _, k, fs, c, _, hk, hpc, _⟩ |
      ⟨w, pc, u, hi, _, _, rfl⟩
    · exact Or.inl (List.mem_append_right _ (List.mem_map_of_mem (List.mem_of_getElem? hold)))
    · have hmem : w'.spawn ∈ c.waiting := by simp [Call.waiting, hpc]
      exact Or.inl (List.mem_append_left _
        (List.mem_flatMap.mpr ⟨c, List.mem_of_getElem? hk, hmem⟩))
    · have hmem := List.mem_map_of_mem (f := Worker.spawn) (List.mem_of_getElem? hi)
      exact Or.inl (List.mem_append_right _ hmem)

/-- The tokens that one step can cancel: the one of the current state, by a call that has
passed its check or replaces the state; the one of a downloader that comes to its end; and the
one of a state that is refused. -/
theorem Move.isCancelled_cases (h : Move sha1 torrent s l s') {t : Nat}
    (ht : s'.isCancelled t = true) :
    s.isCancelled t = true ∨
      (s.state.token = some t ∧ ∃ k fs c, l = .call k fs ∧ s.calls[k]? = some c ∧
        (c.pc = .checked ∨ ∃ next, c.pc = .swapping next)) ∨
      (∃ i w, s.workers[i]? = some w ∧ w.spawn.token = t ∧ w.spawn.kind = .downloader ∧
        s' = ((s.cancelToken w.spawn.token).request (.seed w.spawn.directory torrent)).setWorker
          i w .stopped) ∨
      ∃ k fs c next, l = .call k fs ∧ s.calls[k]? = some c ∧ c.pc = .swapping next ∧
        next.token = some t ∧ s.state = .cancelled := by
  have hcancel : ∀ {u : Nat}, (s.cancelToken u).isCancelled t = true →
      s.isCancelled t = true ∨ u = t := by
    intro u hu
    by_cases hut : u = t
    · exact Or.inr hut
    · refine Or.inl ?_
      rw [State.isCancelled_iff] at hu ⊢
      rwa [State.cancelToken, List.getElem?_set_ne hut] at hu
  have hinner : ∀ {state : TorrentState}, (s.cancelInner state).isCancelled t = true →
      s.isCancelled t = true ∨ state.token = some t := by
    intro state hu
    unfold State.cancelInner at hu
    split at hu
    · rename_i u hstate
      exact (hcancel hu).imp_right fun (he : u = t) => he ▸ hstate
    · exact Or.inl hu
  cases h with
  | request target => exact Or.inl ht
  | call hk hcall =>
    cases hcall with
    | cancelInner hpc =>
      exact (hinner ht).imp_right fun he => Or.inl ⟨he, _, _, _, rfl, hk, Or.inl hpc⟩
    | swap hpc =>
      exact (hinner ht).imp_right fun he => Or.inl ⟨he, _, _, _, rfl, hk, Or.inr ⟨_, hpc⟩⟩
    | discard hpc hdead =>
      exact (hinner ht).imp_right fun he =>
        Or.inr (Or.inr ⟨_, _, _, _, rfl, hk, hpc, he, hdead⟩)
    | opened =>
      refine Or.inl ?_
      rw [State.isCancelled_iff] at ht ⊢
      rcases of_getElem?_concat ht with hold | ⟨_, hnew⟩
      · exact hold
      · contradiction
    | load =>
      refine Or.inl ?_
      rw [State.isCancelled_iff] at ht ⊢
      simpa using ht
    | _ => exact Or.inl ht
  | work hi hwork =>
    cases hwork with
    | seedNext hpc hkind =>
      exact (hcancel ht).imp_right fun he => Or.inr (Or.inl ⟨_, _, hi, he, hkind, rfl⟩)
    | _ => exact Or.inl ht

/-- A worker is one of those that were given a token. -/
theorem spawn_mem_given {i : Nat} {w : Worker} (hi : s.workers[i]? = some w) :
    w.spawn ∈ s.given :=
  List.mem_append_right _ (List.mem_map_of_mem (List.mem_of_getElem? hi))

/-! ## Tokens of their own -/

/-- The state of a call that has been opened is known to nobody else: its token is not
cancelled, belongs to no worker and to no other state. -/
structure Fresh (s : State) : Prop where
  disciplined : Disciplined s
  pending : ∀ (k : Nat) (c : Call) (next : TorrentState) (t : Nat), s.calls[k]? = some c →
    c.pc.pending = some next → next.token = some t →
    s.isCancelled t = false ∧ s.state.token ≠ some t ∧ ∀ v ∈ s.given, v.token ≠ t
  distinct : ∀ (j k : Nat) (c d : Call) (next other : TorrentState) (t : Nat), j ≠ k →
    s.calls[j]? = some c → s.calls[k]? = some d → c.pc.pending = some next →
    d.pc.pending = some other → next.token = some t → other.token ≠ some t
  unique : ∀ v ∈ s.given, s.state.token = some v.token → s.state.spawn = some v

/-- A session starts with fresh tokens. -/
theorem fresh_new (n : Nat) : Fresh (.new n) where
  disciplined := disciplined_new n
  pending := by simp [State.new]
  distinct := by simp [State.new]
  unique := by simp [State.new, State.given]

/-- Every token is below the number of tokens. -/
theorem Disciplined.given_lt (h : Disciplined s) {v : Spawn} (hv : v ∈ s.given) :
    v.token < s.tokens.length := by
  have hgoverned : s.Governed v.token := by
    rcases List.mem_append.mp hv with hv | hv
    · obtain ⟨c, hc, hmem⟩ := List.mem_flatMap.mp hv
      unfold Call.waiting at hmem
      split at hmem
      · rw [List.mem_singleton.mp hmem]
        exact h.spawning c hc _ ‹_›
      · contradiction
    · obtain ⟨w, hw, rfl⟩ := List.mem_map.mp hv
      exact h.workers w hw
  rcases hgoverned with hcurrent | hcancelled
  · exact h.current _ hcurrent
  · exact (List.getElem?_eq_some_iff.mp (State.isCancelled_iff.mp hcancelled)).1

/-- A pending state was pending in the same call before, has no token, or was opened in this
step under the next token. -/
theorem Move.pending_origin (h : Move sha1 torrent s l s') {k : Nat} {c' : Call}
    {next : TorrentState} (hk : s'.calls[k]? = some c') (hp : c'.pc.pending = some next) :
    (∃ c, s.calls[k]? = some c ∧ c.pc.pending = some next) ∨ next.token = none ∨
      ((∃ fs, l = .call k fs) ∧ next.token = some s.tokens.length ∧
        s'.tokens = s.tokens ++ [false]) := by
  rcases h.call_origin hk with hold | ⟨_, hreq⟩ | ⟨fs, c, pc, u, hl, hc, hadv, rfl, rfl⟩
  · exact Or.inl ⟨c', hold, hp⟩
  · rw [hreq] at hp
    contradiction
  · rcases hadv.pending hp with hp' | hnone | ⟨hnew, hlt⟩
    · exact Or.inl ⟨c, hc, hp'⟩
    · exact Or.inr (Or.inl hnone)
    · refine Or.inr (Or.inr ⟨⟨fs, hl⟩, hnew, ?_⟩)
      cases hadv with
      | opened => rfl
      | _ => simp [State.spawnWorker] at hlt

/-- A call that still holds its state has not handed one over in this step. -/
theorem Move.not_swapping (h : Move sha1 torrent s l s') {k : Nat} {fs : FileSystem} {c' : Call}
    {next other : TorrentState} {c : Call} (hk : s'.calls[k]? = some c')
    (hp : c'.pc.pending = some next) (hl : l = .call k fs) (hc : s.calls[k]? = some c)
    (hpc : c.pc = .swapping other) : False := by
  cases h with
  | request target => contradiction
  | work hi hwork => cases hwork <;> contradiction
  | call hk' hcall =>
    cases hl
    cases Option.some.inj (hk'.symm.trans hc)
    rw [State.setCall_calls, hcall.calls] at hk
    rcases of_getElem?_set hk with ⟨_, rfl⟩ | ⟨hne, _⟩
    · have hnone : other.afterSwap.pending = none := by
        unfold TorrentState.afterSwap
        split <;> rfl
      cases hcall with
      | swap hpc' | discard hpc' =>
        cases hpc.symm.trans hpc'
        rw [hnone] at hp
        contradiction
      | refuse hpc' | guard hpc' | cancelInner hpc' | read hpc' | fail hpc' | opened hpc'
      | load hpc' | spawn hpc' => cases hpc.symm.trans hpc'
    · exact hne rfl

/-- A state that a call was carrying already is still its own. -/
theorem Move.fresh_carried (h : Move sha1 torrent s l s') (hs : Fresh s) {k : Nat} {c c' : Call}
    {next : TorrentState} {t : Nat} (hk : s'.calls[k]? = some c') (hp : c'.pc.pending = some next)
    (hc : s.calls[k]? = some c) (hp' : c.pc.pending = some next) (ht : next.token = some t) :
    s'.isCancelled t = false ∧ s'.state.token ≠ some t ∧ ∀ v ∈ s'.given, v.token ≠ t := by
  obtain ⟨hcan, hcur, hgiven⟩ := hs.pending k c next t hc hp' ht
  -- whichever call hands a state over in this step, it is another one with another token
  have hother : ∀ {j : Nat} {fs : FileSystem} {d : Call} {other : TorrentState},
      l = .call j fs → s.calls[j]? = some d → d.pc = .swapping other →
      other.token ≠ some t := by
    intro j fs d other hl hd hpc
    by_cases hjk : j = k
    · subst hjk
      exact absurd (h.not_swapping hk hp hl hd hpc) id
    · exact hs.distinct k j c d next other t (Ne.symm hjk) hc hd hp' (by rw [hpc]; rfl) ht
  refine ⟨?_, ?_, ?_⟩
  · by_contra hcan'
    rcases h.isCancelled_cases (by simpa using hcan') with h1 | ⟨h1, _⟩ | ⟨i, w, hi, h1, _⟩ |
      ⟨j, fs, d, other, hl, hd, hpc, h1, _⟩
    · rw [hcan] at h1
      contradiction
    · exact hcur h1
    · exact hgiven w.spawn (spawn_mem_given hi) h1
    · exact hother hl hd hpc h1
  · rcases h.spawn_cases with hsame | ⟨j, fs, d, other, hl, hd, hpc, _, rfl⟩
    · rwa [token_eq_spawn_token, hsame, ← token_eq_spawn_token]
    · exact hother hl hd hpc
  · intro v hv he
    rcases h.given_cases hv with hold | ⟨j, fs, d, other, hl, hd, hpc, hspawn⟩
    · exact hgiven v hold he
    · exact hother hl hd hpc (he ▸ spawn_token hspawn)

/-- A state that has just been opened has a token that nobody has seen. -/
theorem Move.fresh_opened (h : Move sha1 torrent s l s') (hs : Fresh s)
    (htok : s'.tokens = s.tokens ++ [false]) :
    s'.isCancelled s.tokens.length = false ∧ s'.state.token ≠ some s.tokens.length ∧
      ∀ v ∈ s'.given, v.token ≠ s.tokens.length := by
  have hnotgiven : ∀ v ∈ s'.given, v.token ≠ s.tokens.length := by
    intro v hv he
    rcases h.given_cases hv with hold | ⟨j, fs', d, other, hl', hd, hpc, hspawn⟩
    · have hlt := hs.disciplined.given_lt hold
      omega
    · have hlt := hs.disciplined.pending d (List.mem_of_getElem? hd) other v.token
        (by rw [hpc]; rfl) (spawn_token hspawn)
      omega
  refine ⟨?_, ?_, hnotgiven⟩
  · simp [State.isCancelled, htok]
  · rcases h.spawn_cases with hsame | ⟨j, fs', d, other, hl', hd, hpc, _, rfl⟩
    · rw [token_eq_spawn_token, hsame, ← token_eq_spawn_token]
      intro hcur
      have hlt := hs.disciplined.current _ hcur
      omega
    · intro hcur
      have hlt := hs.disciplined.pending d (List.mem_of_getElem? hd) other _
        (by rw [hpc]; rfl) hcur
      omega

/-- Two calls carry states with different tokens. -/
theorem Move.fresh_distinct (h : Move sha1 torrent s l s') (hs : Fresh s) {j k : Nat} {c d : Call}
    {next other : TorrentState} {t : Nat} (hjk : j ≠ k) (hj : s'.calls[j]? = some c)
    (hk : s'.calls[k]? = some d) (hpj : c.pc.pending = some next)
    (hpk : d.pc.pending = some other) (ht : next.token = some t) : other.token ≠ some t := by
  intro hother
  have hlt : ∀ {i : Nat} {e : Call} {n : TorrentState}, s.calls[i]? = some e →
      e.pc.pending = some n → n.token = some t → t < s.tokens.length := fun he hp hn =>
    hs.disciplined.pending _ (List.mem_of_getElem? he) _ t hp hn
  rcases h.pending_origin hj hpj with ⟨c₀, hc₀, hp₀⟩ | hnone | ⟨⟨fs, hl⟩, hnew, _⟩
  · rcases h.pending_origin hk hpk with ⟨d₀, hd₀, hq₀⟩ | hnone | ⟨_, hnew, _⟩
    · exact hs.distinct j k c₀ d₀ next other t hjk hc₀ hd₀ hp₀ hq₀ ht hother
    · rw [hnone] at hother
      contradiction
    · have he : s.tokens.length = t := Option.some.inj (hnew.symm.trans hother)
      have := hlt hc₀ hp₀ ht
      omega
  · rw [hnone] at ht
    contradiction
  · have he : s.tokens.length = t := Option.some.inj (hnew.symm.trans ht)
    rcases h.pending_origin hk hpk with ⟨d₀, hd₀, hq₀⟩ | hnone | ⟨⟨fs', hl'⟩, _, _⟩
    · have := hlt hd₀ hq₀ hother
      omega
    · rw [hnone] at hother
      contradiction
    · cases hl.symm.trans hl'
      exact hjk rfl

/-- The worker with the token of the state is its worker. -/
theorem Move.fresh_unique (h : Move sha1 torrent s l s') (hs : Fresh s) {v : Spawn}
    (hv : v ∈ s'.given) (hcur : s'.state.token = some v.token) : s'.state.spawn = some v := by
  rcases h.spawn_cases with hsame | ⟨k, fs, c, next, hl, hk, hpc, hlive, rfl⟩
  · rw [token_eq_spawn_token, hsame, ← token_eq_spawn_token] at hcur
    rw [hsame]
    rcases h.given_cases hv with hold | ⟨k, fs, c, next, hl, hk, hpc, hspawn⟩
    · exact hs.unique v hold hcur
    · exact absurd hcur
        (hs.pending k c next v.token hk (by rw [hpc]; rfl) (spawn_token hspawn)).2.1
  · rcases h.given_cases hv with hold | ⟨k', fs', c', next', hl', hk', hpc', hspawn⟩
    · exact absurd rfl
        ((hs.pending k c next v.token hk (by rw [hpc]; rfl) hcur).2.2 v hold)
    · cases hl.symm.trans hl'
      cases Option.some.inj (hk.symm.trans hk')
      cases hpc.symm.trans hpc'
      exact hspawn

/-- Every step keeps the tokens fresh. -/
theorem Move.fresh (h : Move sha1 torrent s l s') (hs : Fresh s) : Fresh s' where
  disciplined := h.disciplined hs.disciplined
  pending := by
    intro k c' next t hk hp ht
    rcases h.pending_origin hk hp with ⟨c, hc, hp'⟩ | hnone | ⟨_, hnew, htok⟩
    · exact h.fresh_carried hs hk hp hc hp' ht
    · rw [hnone] at ht
      contradiction
    · cases Option.some.inj (hnew.symm.trans ht)
      exact h.fresh_opened hs htok
  distinct := fun _ _ _ _ _ _ _ hjk hj hk hpj hpk ht => h.fresh_distinct hs hjk hj hk hpj hpk ht
  unique := fun _ hv hcur => h.fresh_unique hs hv hcur

/-! ## Resources for the right worker -/

/-- A state that has been opened still has its resources. -/
def Stocked (s : State) : Prop :=
  ∀ c ∈ s.calls, ∀ next v, c.pc.pending = some next → next.spawn = some v →
    next.hasResources = true

/-- A state that was opened has its resources. -/
theorem openState_hasResources {fs : FileSystem} {metafile : Metafile} {token : Nat}
    {last : LastState} {bitfield : Option BitField} {next : TorrentState}
    (h : openState sha1 fs metafile token last = .ok (bitfield, next)) :
    next.hasResources = true := by
  cases last with
  | downloading dest =>
    simp only [openState] at h
    split at h
    · contradiction
    · cases h
      rfl
  | seeding path =>
    simp only [openState] at h
    split at h
    · contradiction
    · contradiction
    · cases h
      rfl

/-- Every step keeps the resources of the state until a worker takes them. -/
theorem Move.stocked (h : Move sha1 torrent s l s') (hs : Stocked s) : Stocked s' := by
  intro c' hc next v hp hv
  obtain ⟨j, hj⟩ := List.getElem?_of_mem hc
  rcases h.call_origin hj with hold | ⟨_, hreq⟩ | ⟨fs, c, pc, u, _, hk, hadv, _, rfl⟩
  · exact hs c' (List.mem_of_getElem? hold) next v hp hv
  · rw [hreq] at hp
    contradiction
  · rcases hadv.pending hp with hp' | hnone | ⟨_, hlt⟩
    · exact hs c (List.mem_of_getElem? hk) next v hp' hv
    · rw [spawn_token hv] at hnone
      contradiction
    · cases hadv with
      | opened hpc hopen =>
        cases hp
        exact openState_hasResources hopen
      | _ => simp [State.spawnWorker] at hlt

/-- The only worker of the state's kind that has still to start is the state's own, and it has
to start exactly as long as the resources are there. -/
def OwnWaiting (s : State) : Prop :=
  ∀ v, s.state.spawn = some v →
    (s.waitingOf v.kind = [v] ∧ s.state.hasResources = true) ∨
      (s.waitingOf v.kind = [] ∧ s.state.hasResources = false)

/-- The waiting workers of a kind, up to order. -/
theorem waitingOf_perm {a b : List Spawn} (h : a.Perm b) (kind : WorkerKind) :
    (a.filter fun v => v.kind = kind).Perm (b.filter fun v => v.kind = kind) := h.filter _

/-- A worker that starts is the state's own when it is of the state's kind. -/
theorem OwnWaiting.eq_of_kind (h : OwnWaiting s) {v u : Spawn} (hv : s.state.spawn = some v)
    (hu : u ∈ s.waiting) (hkind : u.kind = v.kind) : u = v ∧ s.state.hasResources = true := by
  have hmem : u ∈ s.waitingOf v.kind := List.mem_filter.mpr ⟨hu, by simpa using hkind⟩
  rcases h v hv with ⟨hw, hr⟩ | ⟨hw, _⟩
  · rw [hw] at hmem
    exact ⟨List.mem_singleton.mp hmem, hr⟩
  · rw [hw] at hmem
    contradiction

/-- What the first condition says about an installed state. -/
theorem waitingOf_of_startsInTime {k : Nat} {c : Call} {next : TorrentState} {fs : FileSystem}
    {v : Spawn} (h : startsInTime s (.call k fs) = true) (hk : s.calls[k]? = some c)
    (hpc : c.pc = .swapping next) (hlive : s.state ≠ .cancelled) (hv : next.spawn = some v) :
    s.waitingOf v.kind = [] := by
  obtain ⟨target, pc⟩ := c
  subst hpc
  simp only [startsInTime, hk, Bool.or_eq_true, beq_iff_eq, hlive, false_or, hv,
    Option.all_some, List.isEmpty_iff] at h
  exact h

/-- The waiting worker stays the state's own, if workers start in time. -/
theorem Move.ownWaiting (h : Move sha1 torrent s l s') (hs : OwnWaiting s) (hst : Stocked s)
    (hl : startsInTime s l = true) : OwnWaiting s' := by
  intro v hv
  have hsame : ∀ {a : List Spawn}, a.Perm (s.waitingOf v.kind) →
      s.state.spawn = some v → (a = [v] ∧ s.state.hasResources = true) ∨
        (a = [] ∧ s.state.hasResources = false) := by
    intro a ha hv
    rcases hs v hv with ⟨h1, h2⟩ | ⟨h1, h2⟩ <;> rw [h1] at ha
    · exact Or.inl ⟨List.perm_singleton.mp ha, h2⟩
    · exact Or.inr ⟨ha.eq_nil, h2⟩
  rcases h.state_origin with ⟨k, fs, c, next, rfl, hk, hpc, hlive, rfl, hperm⟩ | ⟨_, hdead, _⟩ |
    ⟨i, w, rest, rfl, hi, hpc, htake, rfl, hperm⟩ | ⟨i, w, rfl, hi, hpc, htake, rfl, hperm⟩ |
    ⟨hstate, _, hperm, _⟩
  · have hv' : next.spawn = some v := hv
    have hempty := waitingOf_of_startsInTime hl hk hpc hlive hv'
    have hw := waitingOf_perm hperm v.kind
    rw [hv', Option.toList_some, List.filter_append] at hw
    change List.Perm _ (_ ++ s.waitingOf v.kind) at hw
    rw [hempty, List.append_nil, List.filter_singleton, decide_eq_true rfl] at hw
    exact Or.inl ⟨List.perm_singleton.mp hw,
      hst c (List.mem_of_getElem? hk) next v (by rw [hpc]; rfl) hv'⟩
  · rw [hdead] at hv
    contradiction
  · obtain ⟨worker, hspawn, hkind, _, hrest, hnone⟩ := takeFor_eq_some htake
    have hworker : worker = v := Option.some.inj (hrest.symm.trans hv)
    subst hworker
    have hmem : w.spawn ∈ s.waiting := hperm.subset List.mem_cons_self
    obtain ⟨hown, hr⟩ := hs.eq_of_kind hspawn hmem hkind.symm
    have hw := waitingOf_perm hperm worker.kind
    rw [List.filter_cons, hown, decide_eq_true rfl, if_pos rfl] at hw
    rcases hs worker hspawn with ⟨h1, _⟩ | ⟨_, h2⟩
    · rw [State.waitingOf] at h1
      rw [h1] at hw
      exact Or.inr ⟨((List.perm_cons worker).mp hw).eq_nil, hnone⟩
    · rw [h2] at hr
      contradiction
  · have hv' : s.state.spawn = some v := hv
    have hkind : w.spawn.kind ≠ v.kind := by
      intro hkind
      have hmem : w.spawn ∈ s.waiting := hperm.subset List.mem_cons_self
      obtain ⟨_, hr⟩ := hs.eq_of_kind hv' hmem hkind
      exact takeFor_ne_none hv' hr (hkind ▸ htake)
    have hw := waitingOf_perm hperm v.kind
    rw [List.filter_cons, if_neg (by simpa using hkind)] at hw
    exact hsame hw hv'
  · rw [hstate] at hv ⊢
    exact hsame (waitingOf_perm hperm v.kind) hv

/-- Every worker took its resources from the state that carries its token. -/
def OwnTakes (s : State) : Prop := ∀ e ∈ s.takes, e.state = some e.worker

/-- Workers take the resources of their own state. -/
theorem Move.ownTakes (h : Move sha1 torrent s l s') (hs : OwnTakes s) (hw : OwnWaiting s) :
    OwnTakes s' := by
  rcases h.state_origin with ⟨k, fs, c, next, _, _, _, _, rfl, _⟩ | ⟨_, _, htakes⟩ |
    ⟨i, w, rest, _, _, _, htake, rfl, hperm⟩ | ⟨i, w, _, _, _, _, rfl, _⟩ | ⟨_, htakes, _, _⟩
  · simpa [OwnTakes] using hs
  · rw [OwnTakes, htakes]
    exact hs
  · obtain ⟨worker, hspawn, hkind, _, _, _⟩ := takeFor_eq_some htake
    have hmem : w.spawn ∈ s.waiting := hperm.subset List.mem_cons_self
    obtain ⟨rfl, _⟩ := hw.eq_of_kind hspawn hmem hkind.symm
    exact forall_mem_concat hs (spawn_token hspawn)
  · exact hs
  · rw [OwnTakes, htakes]
    exact hs

/-! ## States that are served -/

/-- A call that is bound to replace the current state unless it fails. -/
def Call.obliged (c : Call) (state : TorrentState) : Prop :=
  c.pc.guarded = true ∨ (c.pc = .requested ∧ state.canTransitionTo c.target = true)

/-- The worker has its resources and has not come to its end. -/
def WorkerPc.serving : WorkerPc → Bool
  | .looping | .left | .concluding => true
  | .spawned | .stopped => false

/-- What becomes of a call that is bound to replace the state: it stays so, it replaces the
state or is refused by a cancelled session, or it ends without a new state. -/
theorem Move.obliged (h : Move sha1 torrent s l s') {j : Nat} {c : Call}
    (hj : s.calls[j]? = some c) (ho : c.obliged s.state) (hlive : s.state ≠ .cancelled)
    (hrow : s'.state.canTransitionTo = s.state.canTransitionTo) :
    (∃ c' ∈ s'.calls, c'.target = c.target ∧ c'.obliged s'.state) ∨
      (∃ fs next, l = .call j fs ∧ c.pc = .swapping next) ∨
      ∃ fs, l = .call j fs ∧ endsWithout sha1 s c fs = true := by
  rcases h.call_next hj with hsame | ⟨fs, pc, u, hl, hadv, rfl, hmoved⟩
  · refine Or.inl ⟨c, List.mem_of_getElem? hsame, rfl, ?_⟩
    rw [Call.obliged, hrow]
    exact ho
  · have hgo : pc.guarded = true → ∃ c' ∈ (u.setCall j c pc).calls, c'.target = c.target ∧
        c'.obliged (u.setCall j c pc).state :=
      fun hp => ⟨_, List.mem_of_getElem? hmoved, rfl, Or.inl hp⟩
    cases hadv with
    | refuse hpc hcan =>
      rcases ho with hg | ⟨_, hcan'⟩
      · rw [hpc] at hg
        contradiction
      · rw [hcan] at hcan'
        contradiction
    | guard hpc hcan => exact Or.inl (hgo rfl)
    | cancelInner hpc => exact Or.inl (hgo (by cases c.target <;> rfl))
    | read hpc hread =>
      rcases afterRead_cases hread with ⟨_, rfl⟩ | ⟨_, _, _, _, rfl⟩ | ⟨_, _, _, rfl⟩ |
        ⟨_, hdead, rfl⟩ | ⟨_, _, rfl⟩
      · exact Or.inl (hgo rfl)
      · exact Or.inl (hgo rfl)
      · exact Or.inr (Or.inr ⟨fs, hl, by rw [endsWithout, hpc]; simp [hread]⟩)
      · exact absurd hdead hlive
      · exact Or.inl (hgo rfl)
    | fail hpc hopen => exact Or.inr (Or.inr ⟨fs, hl, by rw [endsWithout, hpc]; simp [hopen]⟩)
    | opened hpc hopen => exact Or.inl (hgo rfl)
    | load hpc => exact Or.inl (hgo rfl)
    | swap hpc | discard hpc => exact Or.inr (Or.inl ⟨fs, _, hl, hpc⟩)
    | spawn hpc =>
      rcases ho with hg | ⟨hpc', _⟩
      · rw [hpc] at hg
        contradiction
      · cases hpc.symm.trans hpc'

/-- The worker of the current state was told to stop only by a call that is bound to replace
the state. -/
def Told (s : State) : Prop :=
  ∀ t, s.state.token = some t → s.isCancelled t = true → ∃ c ∈ s.calls, c.obliged s.state

/-- The worker of the current state has still to start, serves the state, or was told to stop;
or its own request to pause is under way. -/
def Served (s : State) : Prop :=
  ∀ v, s.state.spawn = some v →
    v ∈ s.waiting ∨ (∃ w ∈ s.workers, w.spawn = v ∧ w.pc.serving = true) ∨
      s.isCancelled v.token = true ∨ ∃ c ∈ s.calls, c.target = .pause ∧ c.obliged s.state

/-- The edges that a worker asks for at its end are allowed from its own state. -/
theorem canTransitionTo_of_spawn {state : TorrentState} {v : Spawn} (h : state.spawn = some v) :
    state.canTransitionTo .pause = true ∧
      (v.kind = .downloader → ∀ path metafile,
        state.canTransitionTo (.seed path metafile) = true) := by
  cases state with
  | idle last => contradiction
  | cancelled => contradiction
  | downloading path dest resources token => exact ⟨rfl, fun _ _ _ => rfl⟩
  | seeding path resources token =>
    cases h
    exact ⟨rfl, nofun⟩

/-- A state that spawns a worker is not cancelled. -/
theorem ne_cancelled_of_spawn {state : TorrentState} {v : Spawn} (h : state.spawn = some v) :
    state ≠ .cancelled := by
  rintro rfl
  contradiction

/-- What the second condition says about a call that ends without a new state. -/
theorem not_cancelled_of_failsQuietly {k : Nat} {c : Call} {fs : FileSystem} {t : Nat}
    (h : failsQuietly sha1 s (.call k fs) = true) (hk : s.calls[k]? = some c)
    (he : endsWithout sha1 s c fs = true) (ht : s.state.token = some t) :
    s.isCancelled t = false := by
  simpa [failsQuietly, hk, he, ht] using h

/-- A call that was asked to pause does not end without a new state. -/
theorem endsWithout_pause {c : Call} {fs : FileSystem} (hown : OpensOwn s) (hc : c ∈ s.calls)
    (ht : c.target = .pause) : endsWithout sha1 s c fs = false := by
  unfold endsWithout
  split
  · rename_i metafile last hpc
    have hopens := hown c hc metafile last hpc
    rw [ht] at hopens
    contradiction
  · rw [ht]
    rfl
  · rfl

/-- A replaced state starts with a token that nobody has cancelled. -/
theorem Fresh.not_cancelled_of_install (hs : Fresh s) {k : Nat} {fs : FileSystem} {c : Call}
    {next : TorrentState} {t : Nat} (h : Move sha1 torrent s (.call k fs) s')
    (hk : s.calls[k]? = some c) (hpc : c.pc = .swapping next) (hlive : s.state ≠ .cancelled)
    (ht : next.token = some t) : s'.isCancelled t = false := by
  obtain ⟨hcan, hcur, hgiven⟩ := hs.pending k c next t hk (by rw [hpc]; rfl) ht
  by_contra hcan'
  rcases h.isCancelled_cases (by simpa using hcan') with h1 | ⟨h1, _⟩ | ⟨i, w, hi, h1, _⟩ |
    ⟨_, _, _, _, _, _, _, _, hdead⟩
  · rw [hcan] at h1
    contradiction
  · exact hcur h1
  · exact hgiven w.spawn (spawn_mem_given hi) h1
  · exact hlive hdead

/-- Workers are told to stop only by calls that replace the state, if these fail quietly. -/
theorem Move.told (h : Move sha1 torrent s l s') (hs : Told s) (hf : Fresh s)
    (hl : failsQuietly sha1 s l = true) : Told s' := by
  intro t ht hcan
  rcases h.state_origin with ⟨k, fs, c, next, rfl, hk, hpc, hlive, rfl, _⟩ | ⟨_, hdead, _⟩ |
    ⟨i, w, rest, rfl, hi, hpc, htake, rfl, _⟩ | ⟨i, w, rfl, hi, hpc, htake, rfl, _⟩ |
    ⟨hstate, _, _, hnot⟩
  · rw [hf.not_cancelled_of_install h hk hpc hlive ht] at hcan
    contradiction
  · rw [hdead] at ht
    contradiction
  · obtain ⟨hrow, _, _, _⟩ := takeFor_spec htake
    obtain ⟨c, hc, ho⟩ := hs t ((takeFor_token htake).symm.trans ht) hcan
    refine ⟨c, hc, ?_⟩
    rw [Call.obliged] at ho ⊢
    simpa [State.take, hrow] using ho
  · exact hs t ht hcan
  · rw [hstate] at ht
    have hlive : s.state ≠ .cancelled := by
      intro hdead
      rw [hdead] at ht
      contradiction
    have hrow : s'.state.canTransitionTo = s.state.canTransitionTo := by rw [hstate]
    rcases h.isCancelled_cases hcan with hold | ⟨_, k, fs, c, hlk, hk, hpc⟩ |
      ⟨i, w, hi, hwt, hkind, rfl⟩ | ⟨_, _, _, _, _, _, _, _, hdead⟩
    · obtain ⟨c, hc, ho⟩ := hs t ht hold
      obtain ⟨j, hj⟩ := List.getElem?_of_mem hc
      rcases h.obliged hj ho hlive hrow with ⟨c', hc', _, ho'⟩ | ⟨fs, next, hlj, hpc⟩ |
        ⟨fs, rfl, hends⟩
      · exact ⟨c', hc', ho'⟩
      · exact absurd hpc (hnot j fs c next hlj hj)
      · rw [not_cancelled_of_failsQuietly hl hj hends ht] at hold
        contradiction
    · rcases hpc with hpc | ⟨next, hpc⟩
      · have ho : c.obliged s.state := Or.inl (by rw [hpc]; rfl)
        rcases h.obliged hk ho hlive hrow with ⟨c', hc', _, ho'⟩ | ⟨_, _, _, hpc'⟩ |
          ⟨_, _, hends⟩
        · exact ⟨c', hc', ho'⟩
        · cases hpc.symm.trans hpc'
        · rw [endsWithout, hpc] at hends
          contradiction
      · exact absurd hpc (hnot k fs c next hlk hk)
    · have hspawn := hf.unique w.spawn (spawn_mem_given hi) (by rw [hwt]; exact ht)
      refine ⟨⟨.seed w.spawn.directory torrent, .requested⟩, ?_, Or.inr ⟨rfl, ?_⟩⟩
      · exact List.mem_append_right _ (List.mem_singleton.mpr rfl)
      · rw [hstate]
        exact (canTransitionTo_of_spawn hspawn).2 hkind _ _
    · exact absurd hdead hlive

/-- What a serving worker can do: go on serving, stop because it was told to, cancel its own
token, or ask for a pause. -/
theorem Move.serving (h : Move sha1 torrent s l s') (hd : Disciplined s) {w : Worker}
    (hw : w ∈ s.workers) (hp : w.pc.serving = true) (hspawn : s.state.spawn = some w.spawn)
    (hrow : s'.state.canTransitionTo = s.state.canTransitionTo) :
    (∃ w' ∈ s'.workers, w'.spawn = w.spawn ∧ w'.pc.serving = true) ∨
      s'.isCancelled w.spawn.token = true ∨
      ∃ c ∈ s'.calls, c.target = .pause ∧ c.obliged s'.state := by
  obtain ⟨i, hi⟩ := List.getElem?_of_mem hw
  rcases h.worker_next hi with hsame | ⟨pc, u, hwork, rfl, hmoved⟩
  · exact Or.inl ⟨w, List.mem_of_getElem? hsame, rfl, hp⟩
  · have hgo : pc.serving = true → ∃ w' ∈ (u.setWorker i w pc).workers,
        w'.spawn = w.spawn ∧ w'.pc.serving = true :=
      fun hpc => ⟨_, List.mem_of_getElem? hmoved, rfl, hpc⟩
    cases hwork with
    | take hpc | miss hpc =>
      rw [hpc] at hp
      contradiction
    | leave reason hpc => exact Or.inl (hgo rfl)
    | goOn hpc hcancelled => exact Or.inl (hgo rfl)
    | stop hpc hcancelled => exact Or.inr (Or.inl hcancelled)
    | seedNext hpc hkind =>
      refine Or.inr (Or.inl ?_)
      exact State.isCancelled_cancelToken_self (hd.current _ (spawn_token hspawn))
    | pauseNext hpc hkind =>
      refine Or.inr (Or.inr ⟨⟨.pause, .requested⟩, ?_, rfl, Or.inr ⟨rfl, ?_⟩⟩)
      · exact List.mem_append_right _ (List.mem_singleton.mpr rfl)
      · exact (canTransitionTo_of_spawn hspawn).1

/-- The worker of the state serves it. -/
theorem Move.served (h : Move sha1 torrent s l s') (hs : Served s) (hf : Fresh s)
    (hw : OwnWaiting s) (hown : OpensOwn s) : Served s' := by
  intro v hv
  -- a state that stays keeps everything but, perhaps, its place among the waiting workers
  have hstay : s.state.spawn = some v → s'.state.canTransitionTo = s.state.canTransitionTo →
      (∀ k fs c next, l = .call k fs → s.calls[k]? = some c → c.pc ≠ .swapping next) →
      (v ∈ s.waiting → v ∈ s'.waiting ∨ ∃ w ∈ s'.workers, w.spawn = v ∧ w.pc.serving = true) →
      v ∈ s'.waiting ∨ (∃ w ∈ s'.workers, w.spawn = v ∧ w.pc.serving = true) ∨
        s'.isCancelled v.token = true ∨ ∃ c ∈ s'.calls, c.target = .pause ∧ c.obliged s'.state := by
    intro hspawn hrow hnot hwait
    rcases hs v hspawn with hmem | ⟨w, hmem, rfl, hp⟩ | hcan | ⟨c, hc, ht, ho⟩
    · exact (hwait hmem).imp_right Or.inl
    · exact Or.inr (h.serving hf.disciplined hmem hp hspawn hrow)
    · exact Or.inr (Or.inr (Or.inl (h.isCancelled hcan)))
    · obtain ⟨j, hj⟩ := List.getElem?_of_mem hc
      rcases h.obliged hj ho (ne_cancelled_of_spawn hspawn) hrow with ⟨c', hc', ht', ho'⟩ |
        ⟨fs, next, hl, hpc⟩ | ⟨fs, _, hends⟩
      · exact Or.inr (Or.inr (Or.inr ⟨c', hc', ht'.trans ht, ho'⟩))
      · exact absurd hpc (hnot j fs c next hl hj)
      · rw [endsWithout_pause hown hc ht] at hends
        contradiction
  rcases h.state_origin with ⟨k, fs, c, next, rfl, hk, hpc, hlive, rfl, hperm⟩ | ⟨_, hdead, _⟩ |
    ⟨i, w, rest, rfl, hi, hpc, htake, rfl, hperm⟩ | ⟨i, w, rfl, hi, hpc, htake, rfl, hperm⟩ |
    ⟨hstate, _, hperm, hnot⟩
  · have hv' : next.spawn = some v := hv
    refine Or.inl (hperm.symm.subset (List.mem_append_left _ ?_))
    rw [hv']
    exact List.mem_singleton.mpr rfl
  · rw [hdead] at hv
    contradiction
  · obtain ⟨worker, hspawn, _, _, hrest, _⟩ := takeFor_eq_some htake
    have hworker : worker = v := Option.some.inj (hrest.symm.trans hv)
    subst hworker
    refine hstay hspawn (takeFor_spec htake).1 (fun _ _ _ _ hl => by cases hl) fun hmem => ?_
    rcases List.mem_cons.mp (hperm.symm.subset hmem) with he | hmem'
    · exact Or.inr ⟨{ w with pc := .looping }, mem_set_new hi, he.symm, rfl⟩
    · exact Or.inl hmem'
  · have hv' : s.state.spawn = some v := hv
    refine hstay hv' rfl (fun _ _ _ _ hl => by cases hl) fun hmem => ?_
    rcases List.mem_cons.mp (hperm.symm.subset hmem) with rfl | hmem'
    · obtain ⟨_, hr⟩ := hw.eq_of_kind hv' hmem rfl
      exact absurd htake (takeFor_ne_none hv' hr)
    · exact Or.inl hmem'
  · rw [hstate] at hv
    exact hstay hv (by rw [hstate]) hnot fun hmem => Or.inl (hperm.symm.subset hmem)

/-! ## Runs -/

/-- The call has come to its end. -/
def Pc.over : Pc → Bool
  | .finished _ | .unreachable | .panicked => true
  | _ => false

/-- No transition is under way, every spawned worker has started, and none is on its way out. -/
def State.settled (s : State) : Bool :=
  (s.calls.all fun c => c.pc.over) && s.workers.all fun w => w.pc = .looping || w.pc = .stopped

/-- The invariant of the runs that meet both conditions. -/
structure Owned (s : State) : Prop where
  fresh : Fresh s
  opensOwn : OpensOwn s
  stocked : Stocked s
  waiting : OwnWaiting s
  takes : OwnTakes s
  told : Told s
  served : Served s

/-- A session starts with the invariant. -/
theorem owned_new (n : Nat) : Owned (.new n) where
  fresh := fresh_new n
  opensOwn := opensOwn_new n
  stocked := by simp [Stocked, State.new]
  waiting := by simp [OwnWaiting, State.new, TorrentState.spawn]
  takes := by simp [OwnTakes, State.new]
  told := by simp [Told, State.new, TorrentState.token]
  served := by simp [Served, State.new, TorrentState.spawn]

/-- A step that meets both conditions keeps the invariant. -/
theorem Move.owned (h : Move sha1 torrent s l s') (hs : Owned s)
    (hl : startsInTime s l = true ∧ failsQuietly sha1 s l = true) : Owned s' where
  fresh := h.fresh hs.fresh
  opensOwn := h.opensOwn hs.opensOwn
  stocked := h.stocked hs.stocked
  waiting := h.ownWaiting hs.waiting hs.stocked hl.1
  takes := h.ownTakes hs.takes hs.waiting
  told := h.told hs.told hs.fresh hl.2
  served := h.served hs.served hs.fresh hs.waiting hs.opensOwn

/-- In a settled session nobody waits and nobody is bound to replace the state. -/
theorem not_obliged_of_settled (h : s.settled = true) {c : Call} (hc : c ∈ s.calls) :
    ¬ c.obliged s.state := by
  have hover : c.pc.over = true := List.all_eq_true.mp (Bool.and_eq_true_iff.mp h).1 c hc
  rintro (hg | ⟨hpc, _⟩)
  · cases hpc : c.pc <;> rw [hpc] at hg hover <;> contradiction
  · rw [hpc] at hover
    contradiction

/-- When everything has settled, no worker waits. -/
theorem waiting_of_settled (h : s.settled = true) : s.waiting = [] := by
  obtain ⟨hcalls, hworkers⟩ := Bool.and_eq_true_iff.mp h
  rw [State.waiting, List.append_eq_nil_iff, List.flatMap_eq_nil_iff, List.flatMap_eq_nil_iff]
  constructor
  · intro c hc
    have hover := List.all_eq_true.mp hcalls c hc
    unfold Call.waiting
    split
    · rename_i hpc
      rw [hpc] at hover
      contradiction
    · rfl
  · intro w hw
    have hpc := List.all_eq_true.mp hworkers w hw
    rw [Worker.waiting, if_neg]
    intro hspawned
    rw [hspawned] at hpc
    contradiction

/-- Once everything has settled, the worker of an active state is in its loop. -/
theorem Owned.looping (h : Owned s) (hs : s.settled = true) {v : Spawn}
    (hv : s.state.spawn = some v) : ∃ w ∈ s.workers, w.spawn = v ∧ w.pc = .looping := by
  rcases h.served v hv with hmem | ⟨w, hw, hspawn, hp⟩ | hcan | ⟨c, hc, _, ho⟩
  · rw [waiting_of_settled hs] at hmem
    contradiction
  · refine ⟨w, hw, hspawn, ?_⟩
    have hpc := List.all_eq_true.mp (Bool.and_eq_true_iff.mp hs).2 w hw
    simp only [Bool.or_eq_true, decide_eq_true_eq] at hpc
    rcases hpc with hpc | hpc
    · exact hpc
    · rw [hpc] at hp
      contradiction
  · obtain ⟨c, hc, ho⟩ := h.told v.token (spawn_token hv) hcan
    exact absurd ho (not_obliged_of_settled hs hc)
  · exact absurd ho (not_obliged_of_settled hs hc)

/-- In a run in which no state is installed while an earlier worker of its kind has still to
start, and no transition fails after it has stopped the worker of the current state, a worker
takes resources only from the state that carries its own token, and no active state is left
without a worker in its loop. -/
theorem workers_own_their_state (sha1 : Bytes → Hash20) (torrent : Metafile) (n : Nat)
    (labels : List Label) (s : State)
    (hcond : Along (step sha1 torrent)
      (fun s l => startsInTime s l = true ∧ failsQuietly sha1 s l = true) (.new n) labels)
    (h : run (step sha1 torrent) (.new n) labels = some s) :
    (∀ e ∈ s.takes, e.state = some e.worker) ∧
      (s.settled = true → ∀ v, s.state.spawn = some v →
        ∃ w ∈ s.workers, w.spawn = v ∧ w.pc = .looping) := by
  have hinv : Owned s :=
    run_invariant_along (fun _ _ _ hs hl ha => (step_move ha).owned hs hl) (owned_new n) hcond h
  exact ⟨hinv.takes, fun hs v hv => hinv.looping hs hv⟩

/-- A download is paused after its worker has started, and resumed. -/
def sampleResumedInTime : List Label :=
  sampleDownload ++ .start 0 :: sampleCall 1 .pause 4 ++ [.leave 0 .cancelled, .check 0] ++
    sampleCall 2 (.resume sampleTorrent) 7 ++ [.start 1]

/-- In the sample run both workers took the resources of their own state. -/
theorem workers_own_their_state_sample :
    ∃ s, run (step sampleSha1 sampleTorrent) (.new 1) sampleResumedInTime = some s ∧
      s.settled = true ∧ s.takes.length = 2 ∧ s.state.spawn ≠ none ∧
      (∀ e ∈ s.takes, e.state = some e.worker) ∧
      (s.settled = true → ∀ v, s.state.spawn = some v →
        ∃ w ∈ s.workers, w.spawn = v ∧ w.pc = .looping) := by
  have hrun : ((run (step sampleSha1 sampleTorrent) (.new 1) sampleResumedInTime).any fun s =>
      s.settled = true ∧ s.takes.length = 2 ∧ s.state.spawn ≠ none) = true := by
    decide +kernel
  obtain ⟨s, hs, h1, h2, h3⟩ := exists_of_any hrun
  exact ⟨s, hs, h1, h2, h3, workers_own_their_state sampleSha1 sampleTorrent 1
    sampleResumedInTime s (by decide +kernel) hs⟩

/-- A download is paused and resumed before its first worker has started. -/
def sampleResumedLate : List Label :=
  sampleResumed ++ [.start 0, .leave 0 .cancelled, .check 0, .start 1]

/-- The first worker takes the resources of the second state and stops, the second worker finds
none, and the downloading state is left without a worker. -/
theorem late_start_leaves_state_unserved :
    ∃ s, run (step sampleSha1 sampleTorrent) (.new 1) sampleResumedLate = some s ∧
      s.takes = [⟨0, some 1⟩] ∧ s.settled = true ∧ s.state.token = some 1 ∧
      ∀ w ∈ s.workers, w.pc = .stopped := by
  have hrun : ((run (step sampleSha1 sampleTorrent) (.new 1) sampleResumedLate).any fun s =>
      s.takes = [⟨0, some 1⟩] ∧ s.settled = true ∧ s.state.token = some 1 ∧
        ∀ w ∈ s.workers, w.pc = .stopped) = true := by
    decide +kernel
  obtain ⟨s, hs, hp⟩ := exists_of_any hrun
  exact ⟨s, hs, hp⟩

end Bqti.Session.Lifecycle
