import Bqti.Session.Lifecycle.Cancellation

/-!
# Transitions as edges of the transition table

A call checks the table once, under a lock that it gives back before it replaces the state. The
log of replacements tells whether the edge was still allowed when it was taken. It was, as long
as no replacement takes the ground from under another call that has passed its check.
-/

namespace Bqti.Session.Lifecycle

open Bqti.Core Bqti.Torrent

variable {sha1 : Bytes → Hash20} {torrent : Metafile} {s s' : State} {l : Label}

/-- The states to which a transition is meant to lead. -/
def Transition.leadsTo : Transition → TorrentState → Bool
  | .download _ _, .downloading _ _ _ _ => true
  | .seed _ _, .seeding _ _ _ => true
  | .pause, .idle (some _) => true
  | .resume _, .downloading _ _ _ _ => true
  | .resume _, .seeding _ _ _ => true
  | .cancel, .cancelled => true
  | _, _ => false

/-- The call has replaced the state, or was refused by a cancelled session. -/
def Pc.swapped : Pc → Bool
  | .spawning _ => true
  | .finished (.ok ()) => true
  | _ => false

/-- Every replacement of the state was made by one call, once, along an edge that the table
allows from the state it replaced; calls that fail replace nothing, and no call reaches the
unreachable arm. -/
structure AtomicEdges (s : State) : Prop where
  history : (s.swaps.map fun e => e.previous.withoutResources) ++ [s.state.withoutResources] =
    .idle none :: s.swaps.map fun e => e.next.withoutResources
  edges : ∀ e ∈ s.swaps, e.previous.canTransitionTo e.target = true ∧
    e.target.leadsTo e.next = true
  calls : ∀ e ∈ s.swaps, ∃ c, s.calls[e.call]? = some c ∧ c.target = e.target ∧
    c.pc.swapped = true
  once : (s.swaps.map Swap.call).Nodup
  reachable : ∀ c ∈ s.calls, c.pc ≠ .unreachable

/-- A session that has left its first state never returns to it. -/
theorem AtomicEdges.ne_idle_none (h : AtomicEdges s) (hs : s.swaps ≠ []) :
    s.state ≠ .idle none := by
  intro hidle
  have hhist := congrArg List.getLast? h.history
  rw [List.getLast?_concat, List.getLast?_cons, List.getLast?_map] at hhist
  obtain ⟨e, he⟩ := Option.ne_none_iff_exists'.mp (mt List.getLast?_eq_none_iff.mp hs)
  rw [he] at hhist
  have hlast : s.state.withoutResources = e.next.withoutResources := Option.some.inj hhist
  have hlead := (h.edges e (List.mem_of_getLast? he)).2
  rw [hidle] at hlast
  cases hn : e.next with
  | idle last =>
    rw [hn] at hlast hlead
    cases hlast
    cases ht : e.target <;> rw [ht] at hlead <;> contradiction
  | downloading | seeding | cancelled =>
    rw [hn] at hlast
    contradiction

/-! ## The condition -/

/-- The call has passed its check and has not yet replaced the state. -/
def Pc.guarded : Pc → Bool
  | .checked | .reading | .opening _ _ | .loading _ _ | .swapping _ => true
  | .requested | .spawning _ | .finished _ | .unreachable | .panicked => false

/-- The call has not yet read the state it was going to read. -/
def Pc.beforeRead : Pc → Bool
  | .checked | .reading => true
  | _ => false

/-- The call relies on finding the session paused. -/
def Call.awaitsPaused (c : Call) : Bool :=
  match c.target with
  | .resume _ => c.pc.beforeRead
  | _ => false

/-- A checked call can go on in a state: the table still allows it, or the session is
cancelled, where its new state will be refused. -/
def Call.survives (c : Call) (state : TorrentState) : Bool :=
  state.canTransitionTo c.target || (state == .cancelled && !c.awaitsPaused)

/-- A replacement of the state leaves every other checked call able to go on. -/
def keepsGuards (s : State) : Label → Bool
  | .call k _ =>
      match s.calls[k]? with
      | some ⟨_, .swapping next⟩ =>
          s.state == .cancelled ||
            (s.calls.eraseIdx k).all fun c => !c.pc.guarded || c.survives next
      | _ => true
  | _ => true

/-- What the condition says about a replacement. -/
theorem survives_of_keepsGuards {k j : Nat} {c d : Call} {next : TorrentState} {fs : FileSystem}
    (h : keepsGuards s (.call k fs) = true) (hk : s.calls[k]? = some c)
    (hpc : c.pc = .swapping next) (hlive : s.state ≠ .cancelled) (hj : s.calls[j]? = some d)
    (hne : j ≠ k) (hd : d.pc.guarded = true) : d.survives next = true := by
  obtain ⟨target, pc⟩ := c
  subst hpc
  simp only [keepsGuards, hk, Bool.or_eq_true, beq_iff_eq, hlive, false_or, List.all_eq_true] at h
  have hmem : d ∈ s.calls.eraseIdx k := List.mem_eraseIdx_iff_getElem?.mpr ⟨j, hne, hj⟩
  simpa [hd] using h d hmem

/-! ## The invariant -/

/-- The resources that a call with this target opens. -/
def Transition.opens : Transition → LastState → Bool
  | .download _ _, .downloading _ => true
  | .seed _ _, .seeding _ => true
  | .resume _, _ => true
  | _, _ => false

/-- Every call opens the resources that it was asked for. -/
def OpensOwn (s : State) : Prop :=
  ∀ c ∈ s.calls, ∀ metafile last, c.pc = .opening metafile last → c.target.opens last = true

/-- Every checked call can go on, and what it has prepared fits what it was asked for. -/
structure Guarded (s : State) : Prop where
  allowed : ∀ c ∈ s.calls, c.pc.guarded = true → c.survives s.state = true
  opening : OpensOwn s
  pending : ∀ c ∈ s.calls, ∀ next, c.pc.pending = some next →
    c.target.leadsTo next = true ∨ s.state = .cancelled
  edges : AtomicEdges s

/-- A session without calls opens nothing. -/
theorem opensOwn_new (n : Nat) : OpensOwn (.new n) := by simp [OpensOwn, State.new]

/-- A session without calls is guarded. -/
theorem guarded_new (n : Nat) : Guarded (.new n) where
  allowed := by simp [State.new]
  opening := opensOwn_new n
  pending := by simp [State.new]
  edges :=
    { history := rfl
      edges := by simp [State.new]
      calls := by simp [State.new]
      once := List.nodup_nil
      reachable := by simp [State.new] }

/-- A call that moves without going back before its read can still go on. -/
theorem Call.survives_move {c : Call} {pc : Pc} {state : TorrentState}
    (h : c.survives state = true) (hpc : pc.beforeRead = true → c.pc.beforeRead = true) :
    Call.survives { c with pc := pc } state = true := by
  simp only [Call.survives, Bool.or_eq_true, Bool.and_eq_true, Bool.not_eq_true'] at h ⊢
  refine h.imp_right fun hc => ⟨hc.1, ?_⟩
  have haw := hc.2
  unfold Call.awaitsPaused at haw ⊢
  cases ht : c.target <;> simp only [ht] at haw ⊢
  cases hb : pc.beforeRead with
  | true => rw [hpc hb] at haw; contradiction
  | false => rfl

/-- Taking resources changes neither the row of the table nor the rest of the state. -/
theorem takeFor_spec {state rest : TorrentState} {kind : WorkerKind}
    (h : state.takeFor kind = some rest) :
    rest.canTransitionTo = state.canTransitionTo ∧
      rest.withoutResources = state.withoutResources ∧ rest ≠ .cancelled ∧
      state ≠ .cancelled := by
  rcases takeFor_cases h with ⟨path, dest, resources, token, rfl, rfl, rfl⟩ |
    ⟨path, resources, token, rfl, rfl, rfl⟩
  · exact ⟨funext fun target => by cases target <;> rfl, rfl, nofun, nofun⟩
  · exact ⟨funext fun target => by cases target <;> rfl, rfl, nofun, nofun⟩

/-- A live state in which a checked call can go on allows its edge. -/
theorem canTransitionTo_of_survives {c : Call} {state : TorrentState}
    (h : c.survives state = true) (hlive : state ≠ .cancelled) :
    state.canTransitionTo c.target = true := by
  simp only [Call.survives, Bool.or_eq_true, Bool.and_eq_true, beq_iff_eq, hlive, false_and,
    or_false] at h
  exact h

/-- After `swap_state` a call is past its guarded part. -/
theorem afterSwap_guarded (next : TorrentState) : next.afterSwap.guarded = false := by
  unfold TorrentState.afterSwap
  split <;> rfl

/-- A state that comes after a replacement was replaced. -/
theorem afterSwap_swapped (next : TorrentState) : next.afterSwap.swapped = true := by
  unfold TorrentState.afterSwap
  split <;> rfl

/-- A call is guarded because it was, without going back before its read, or because it has
just checked the table. -/
theorem Advance.guarded {fs : FileSystem} {k : Nat} {c : Call} {pc : Pc} {u : State}
    (h : Advance sha1 s fs k c pc u) (hp : pc.guarded = true) :
    (c.pc.guarded = true ∧ (pc.beforeRead = true → c.pc.beforeRead = true)) ∨
      s.state.canTransitionTo c.target = true := by
  cases h with
  | refuse | spawn => contradiction
  | guard hpc hcan => exact Or.inr hcan
  | cancelInner hpc | read hpc => exact Or.inl (by rw [hpc]; exact ⟨rfl, fun _ => rfl⟩)
  | fail hpc hopen => rcases openState_error hopen with rfl | ⟨_, rfl⟩ <;> contradiction
  | opened hpc | load hpc => exact Or.inl (by rw [hpc]; exact ⟨rfl, fun h => h⟩)
  | swap | discard =>
    rw [afterSwap_guarded] at hp
    contradiction

/-- Two states with the same row, cancelled together, let the same calls go on. -/
theorem survives_congr {c : Call} {a b : TorrentState}
    (hrow : a.canTransitionTo = b.canTransitionTo) (hc : a = .cancelled ↔ b = .cancelled) :
    c.survives a = c.survives b := by
  have hbeq : (a == .cancelled) = (b == .cancelled) := by
    rw [Bool.eq_iff_iff, beq_iff_eq, beq_iff_eq]
    exact hc
  rw [Call.survives, Call.survives, hrow, hbeq]

/-- A step that replaces nothing leaves the row of the table and the rest of the state. -/
theorem Move.state_cases (h : Move sha1 torrent s l s') :
    (s'.state.canTransitionTo = s.state.canTransitionTo ∧
      s'.state.withoutResources = s.state.withoutResources ∧
      (s'.state = .cancelled ↔ s.state = .cancelled) ∧ s'.swaps = s.swaps) ∨
    ∃ k fs c next, l = .call k fs ∧ s.calls[k]? = some c ∧ c.pc = .swapping next ∧
      s.state ≠ .cancelled ∧ s' = (s.install k c.target next).setCall k c next.afterSwap := by
  cases h with
  | request target => exact Or.inl ⟨rfl, rfl, Iff.rfl, rfl⟩
  | call hk hcall =>
    cases hcall with
    | swap hpc hlive => exact Or.inr ⟨_, _, _, _, rfl, hk, hpc, hlive, rfl⟩
    | _ => exact Or.inl (by simp [State.newToken, State.spawnWorker])
  | work hi hwork =>
    cases hwork with
    | take hpc htake =>
      obtain ⟨hrow, hrest, hlive', hlive⟩ := takeFor_spec htake
      exact Or.inl ⟨hrow, hrest, iff_of_false hlive' hlive, rfl⟩
    | _ => exact Or.inl ⟨rfl, rfl, Iff.rfl, rfl⟩

/-! ## Steps keep the invariant -/

/-- The calls that were checked survive the state, if the guards are kept. -/
theorem Move.allowed (h : Move sha1 torrent s l s') (hs : Guarded s)
    (hl : keepsGuards s l = true) :
    ∀ c ∈ s'.calls, c.pc.guarded = true → c.survives s'.state = true := by
  intro c' hc hg
  obtain ⟨j, hj⟩ := List.getElem?_of_mem hc
  rcases h.state_cases with ⟨hrow, _, hdead, _⟩ | ⟨k, fs, c, next, rfl, hk, hpc, hlive, rfl⟩
  · rw [survives_congr hrow hdead]
    rcases h.call_origin hj with hold | ⟨_, hreq⟩ | ⟨fs, c, pc, u, _, hk, hadv, rfl, rfl⟩
    · exact hs.allowed c' (List.mem_of_getElem? hold) hg
    · rw [hreq] at hg
      contradiction
    · rcases hadv.guarded hg with ⟨hg', hb⟩ | hcan
      · exact Call.survives_move (hs.allowed c (List.mem_of_getElem? hk) hg') hb
      · rw [Call.survives, hcan, Bool.true_or]
  · rw [State.setCall_calls, State.install_calls] at hj
    rcases of_getElem?_set hj with ⟨rfl, rfl⟩ | ⟨hne, hold⟩
    · rw [afterSwap_guarded] at hg
      contradiction
    · exact survives_of_keepsGuards hl hk hpc hlive hold hne hg

/-- Every step opens the resources that were asked for. -/
theorem Move.opensOwn (h : Move sha1 torrent s l s') (hs : OpensOwn s) : OpensOwn s' := by
  intro c' hc metafile last hp
  obtain ⟨j, hj⟩ := List.getElem?_of_mem hc
  rcases h.call_origin hj with hold | ⟨_, hreq⟩ | ⟨fs, c, pc, u, _, hk, hadv, rfl, rfl⟩
  · exact hs c' (List.mem_of_getElem? hold) metafile last hp
  · rw [hreq] at hp
    contradiction
  · simp only at hp ⊢
    cases hadv with
    | refuse | guard | opened | load | spawn => contradiction
    | cancelInner hpc =>
      cases ht : c.target <;> rw [ht] at hp <;> cases hp <;> rfl
    | read hpc hread =>
      rcases afterRead_cases hread with ⟨_, rfl⟩ | ⟨_, _, ht, _, rfl⟩ | ⟨_, _, _, rfl⟩ |
        ⟨_, _, rfl⟩ | ⟨_, _, rfl⟩
      all_goals cases hp
      rw [ht]
      rfl
    | fail hpc hopen =>
      rcases openState_error hopen with rfl | ⟨_, rfl⟩ <;> contradiction
    | swap | discard =>
      unfold TorrentState.afterSwap at hp
      split at hp <;> contradiction

/-- A state that the table lets be paused is remembered. -/
theorem lastState_of_pause {state : TorrentState} (h : state.canTransitionTo .pause = true) :
    ∃ last, state.lastState = some last := by
  cases state with
  | downloading path dest resources token => exact ⟨_, rfl⟩
  | seeding path resources token => exact ⟨_, rfl⟩
  | idle last => cases last <;> contradiction
  | cancelled => contradiction

/-- An opened state is of the kind that its call was asked for. -/
theorem openState_leadsTo {fs : FileSystem} {metafile : Metafile} {token : Nat}
    {last : LastState} {bitfield : Option BitField} {next : TorrentState} {target : Transition}
    (h : openState sha1 fs metafile token last = .ok (bitfield, next))
    (ht : target.opens last = true) : target.leadsTo next = true := by
  cases last with
  | downloading dest =>
    simp only [openState] at h
    split at h
    · contradiction
    · cases h
      cases target <;> first | rfl | contradiction
  | seeding path =>
    simp only [openState] at h
    split at h
    · contradiction
    · contradiction
    · cases h
      cases target <;> first | rfl | contradiction

/-- What a call has prepared fits what it was asked for, unless the session is over. -/
theorem Move.pending (h : Move sha1 torrent s l s') (hs : Guarded s) :
    ∀ c ∈ s'.calls, ∀ next, c.pc.pending = some next →
      c.target.leadsTo next = true ∨ s'.state = .cancelled := by
  intro c' hc next hp
  obtain ⟨j, hj⟩ := List.getElem?_of_mem hc
  rcases h.call_origin hj with hold | ⟨_, hreq⟩ | ⟨fs, c, pc, u, _, hk, hadv, rfl, rfl⟩
  · exact (hs.pending c' (List.mem_of_getElem? hold) next hp).imp_right h.cancelled
  · rw [hreq] at hp
    contradiction
  · have hmem : c ∈ s.calls := List.mem_of_getElem? hk
    simp only at hp
    cases hadv with
    | refuse | guard | spawn => contradiction
    | cancelInner hpc =>
      unfold Transition.afterCancel at hp
      split at hp <;> contradiction
    | read hpc hread =>
      rcases afterRead_cases hread with ⟨ht, rfl⟩ | ⟨_, _, _, _, rfl⟩ | ⟨_, _, _, rfl⟩ |
        ⟨_, _, rfl⟩ | ⟨ht, _, rfl⟩
      all_goals cases hp
      · by_cases hdead : s.state = .cancelled
        · exact Or.inr hdead
        · have hcan := canTransitionTo_of_survives (hs.allowed c hmem (by rw [hpc]; rfl)) hdead
          rw [ht] at hcan
          obtain ⟨last, hlast⟩ := lastState_of_pause hcan
          simp only [ht, hlast]
          exact Or.inl rfl
      · simp only [ht]
        exact Or.inl rfl
    | fail hpc hopen => rcases openState_error hopen with rfl | ⟨_, rfl⟩ <;> contradiction
    | opened hpc hopen =>
      cases hp
      exact Or.inl (openState_leadsTo hopen (hs.opening c hmem _ _ hpc))
    | load hpc =>
      have hold := hs.pending c hmem next (by rw [hpc]; exact hp)
      simpa using hold
    | swap | discard =>
      unfold TorrentState.afterSwap at hp
      split at hp <;> contradiction

/-- No call comes to the unreachable arm. -/
theorem Move.reachable (h : Move sha1 torrent s l s') (hs : Guarded s) :
    ∀ c ∈ s'.calls, c.pc ≠ .unreachable := by
  intro c' hc hp
  obtain ⟨j, hj⟩ := List.getElem?_of_mem hc
  rcases h.call_origin hj with hold | ⟨_, hreq⟩ | ⟨fs, c, pc, u, _, hk, hadv, rfl, rfl⟩
  · exact hs.edges.reachable c' (List.mem_of_getElem? hold) hp
  · rw [hreq] at hp
    contradiction
  · simp only at hp
    cases hadv with
    | refuse | guard | opened | load | spawn => contradiction
    | cancelInner hpc =>
      unfold Transition.afterCancel at hp
      split at hp <;> contradiction
    | read hpc hread =>
      rcases afterRead_cases hread with ⟨_, rfl⟩ | ⟨_, _, _, _, rfl⟩ | ⟨metafile, ht, hno, rfl⟩ |
        ⟨_, _, rfl⟩ | ⟨_, _, rfl⟩
      all_goals cases hp
      -- a call that is about to read relies on the paused state, which the table still shows
      have hsurv := hs.allowed c (List.mem_of_getElem? hk) (by rw [hpc]; rfl)
      have haw : c.awaitsPaused = true := by rw [Call.awaitsPaused, ht, hpc]; rfl
      rw [Call.survives, haw, ht, Bool.not_true, Bool.and_false, Bool.or_false] at hsurv
      cases hstate : s.state with
      | idle last =>
        cases last with
        | none => rw [hstate] at hsurv; contradiction
        | some last => exact hno last hstate
      | downloading | seeding | cancelled =>
        rw [hstate] at hsurv
        contradiction
    | fail hpc hopen => rcases openState_error hopen with rfl | ⟨_, rfl⟩ <;> contradiction
    | swap | discard =>
      unfold TorrentState.afterSwap at hp
      split at hp <;> contradiction

/-- A call that has replaced the state only has its worker left to spawn. -/
theorem Move.swapped (h : Move sha1 torrent s l s') {j : Nat} {c : Call}
    (hj : s.calls[j]? = some c) (hp : c.pc.swapped = true) :
    ∃ c', s'.calls[j]? = some c' ∧ c'.target = c.target ∧ c'.pc.swapped = true := by
  rcases h.call_next hj with hsame | ⟨fs, pc, u, _, hadv, _, hmoved⟩
  · exact ⟨c, hsame, rfl, hp⟩
  · refine ⟨_, hmoved, rfl, ?_⟩
    cases hadv with
    | spawn hpc => rfl
    | refuse hpc | guard hpc | cancelInner hpc | read hpc | fail hpc | opened hpc | load hpc
    | swap hpc | discard hpc =>
      rw [hpc] at hp
      contradiction

/-- Replacements stay atomic and on the edges. -/
theorem Move.atomicEdges (h : Move sha1 torrent s l s') (hs : Guarded s) : AtomicEdges s' where
  reachable := h.reachable hs
  history := by
    rcases h.state_cases with ⟨_, hrest, _, hswaps⟩ | ⟨k, fs, c, next, _, _, _, _, rfl⟩
    · rw [hrest, hswaps]
      exact hs.edges.history
    · simp only [State.setCall_swaps, State.install_swaps, State.setCall_state,
        State.install_state, List.map_append, List.map_singleton, hs.edges.history,
        List.cons_append]
  edges := by
    rcases h.state_cases with ⟨_, _, _, hswaps⟩ | ⟨k, fs, c, next, _, hk, hpc, hlive, rfl⟩
    · rw [hswaps]
      exact hs.edges.edges
    · have hmem : c ∈ s.calls := List.mem_of_getElem? hk
      have hcan := canTransitionTo_of_survives (hs.allowed c hmem (by rw [hpc]; rfl)) hlive
      have hlead := (hs.pending c hmem next (by rw [hpc]; rfl)).resolve_right hlive
      exact forall_mem_concat hs.edges.edges ⟨hcan, hlead⟩
  calls := by
    have hold : ∀ e ∈ s.swaps, ∃ c, s'.calls[e.call]? = some c ∧ c.target = e.target ∧
        c.pc.swapped = true := by
      intro e he
      obtain ⟨c, hc, ht, hp⟩ := hs.edges.calls e he
      obtain ⟨c', hc', ht', hp'⟩ := h.swapped hc hp
      exact ⟨c', hc', ht'.trans ht, hp'⟩
    rcases h.state_cases with ⟨_, _, _, hswaps⟩ | ⟨k, fs, c, next, _, hk, hpc, hlive, rfl⟩
    · rw [hswaps]
      exact hold
    · refine forall_mem_concat hold
        ⟨{ c with pc := next.afterSwap }, ?_, rfl, afterSwap_swapped next⟩
      simp only [State.setCall_calls, State.install_calls]
      exact List.getElem?_set_self (List.getElem?_eq_some_iff.mp hk).1
  once := by
    rcases h.state_cases with ⟨_, _, _, hswaps⟩ | ⟨k, fs, c, next, _, hk, hpc, hlive, rfl⟩
    · rw [hswaps]
      exact hs.edges.once
    · simp only [State.setCall_swaps, State.install_swaps, List.map_append, List.map_singleton]
      refine List.nodup_append.mpr ⟨hs.edges.once, List.nodup_singleton k, ?_⟩
      intro a ha b hb hab
      obtain ⟨e, he, rfl⟩ := List.mem_map.mp ha
      have hek : e.call = k := hab.trans (List.mem_singleton.mp hb)
      obtain ⟨d, hd, _, hp⟩ := hs.edges.calls e he
      rw [hek, hk] at hd
      rw [← Option.some.inj hd, hpc] at hp
      contradiction

/-- A step that keeps the guards keeps a session guarded. -/
theorem Move.guardedInv (h : Move sha1 torrent s l s') (hs : Guarded s)
    (hl : keepsGuards s l = true) : Guarded s' :=
  ⟨h.allowed hs hl, h.opensOwn hs.opening, h.pending hs, h.atomicEdges hs⟩

/-- In a run in which no replacement of the state leaves another checked call stranded, every
call replaces the state at most once, along an edge that is allowed at that moment, failing
calls replace nothing, the unreachable arm is never entered, and the session does not return to
its first state. -/
theorem transitions_atomic_edges (sha1 : Bytes → Hash20) (torrent : Metafile) (n : Nat)
    (labels : List Label) (s : State)
    (hkeep : Along (step sha1 torrent) (fun s l => keepsGuards s l = true) (.new n) labels)
    (h : run (step sha1 torrent) (.new n) labels = some s) :
    AtomicEdges s ∧ (s.swaps ≠ [] → s.state ≠ .idle none) := by
  have hinv : Guarded s :=
    run_invariant_along (fun _ _ _ hs hl ha => (step_move ha).guardedInv hs hl)
      (guarded_new n) hkeep h
  exact ⟨hinv.edges, hinv.edges.ne_idle_none⟩

/-- A download that is paused and resumed, one call after the other. -/
def sampleResumed : List Label :=
  sampleDownload ++ sampleCall 1 .pause 4 ++ sampleCall 2 (.resume sampleTorrent) 7

/-- The sample session has replaced its state three times, on edges only. -/
theorem transitions_atomic_edges_sample :
    ∃ s, run (step sampleSha1 sampleTorrent) (.new 1) sampleResumed = some s ∧
      s.swaps.length = 3 ∧ AtomicEdges s ∧ (s.swaps ≠ [] → s.state ≠ .idle none) := by
  have hrun : ((run (step sampleSha1 sampleTorrent) (.new 1) sampleResumed).any fun s =>
      s.swaps.length = 3) = true := by
    decide +kernel
  obtain ⟨s, hs, hp⟩ := exists_of_any hrun
  exact ⟨s, hs, hp,
    transitions_atomic_edges sampleSha1 sampleTorrent 1 sampleResumed s (by decide +kernel) hs⟩

/-- Two pauses that both passed the check while the session was downloading. -/
def samplePausedTwice : List Label :=
  sampleDownload ++ [.request .pause, .request .pause] ++
    ([1, 2, 1, 1, 1, 2, 2, 2].map fun k => .call k (sampleFiles none))

/-- Two resumes that both passed the check while the session was paused. -/
def sampleResumedTwice : List Label :=
  sampleDownload ++ sampleCall 1 .pause 4 ++
    [.request (.resume sampleTorrent), .request (.resume sampleTorrent)] ++
    ([2, 3, 2, 2, 2, 2, 2, 2, 3, 3].map fun k => .call k (sampleFiles none))

/-- The second of two pauses takes the session back to its first state, and the second of two
resumes enters the unreachable arm. -/
theorem racing_transitions_break_edges :
    (∃ s, run (step sampleSha1 sampleTorrent) (.new 1) samplePausedTwice = some s ∧
      s.swaps ≠ [] ∧ s.state = .idle none) ∧
    ∃ s, run (step sampleSha1 sampleTorrent) (.new 1) sampleResumedTwice = some s ∧
      ¬ AtomicEdges s := by
  have hpause : ((run (step sampleSha1 sampleTorrent) (.new 1) samplePausedTwice).any fun s =>
      s.swaps ≠ [] ∧ s.state = .idle none) = true := by
    decide +kernel
  have hresume : ((run (step sampleSha1 sampleTorrent) (.new 1) sampleResumedTwice).any fun s =>
      s.calls.any fun c => c.pc = .unreachable) = true := by
    decide +kernel
  obtain ⟨s, hs, hp⟩ := exists_of_any hpause
  obtain ⟨t, ht, hq⟩ := (Option.any_eq_true _ _).mp hresume
  refine ⟨⟨s, hs, hp⟩, t, ht, fun hedges => ?_⟩
  obtain ⟨c, hc, hpc⟩ := List.any_eq_true.mp hq
  exact hedges.reachable c hc (of_decide_eq_true hpc)

end Bqti.Session.Lifecycle
