import Bqti.Session.Lifecycle.Flow

/-!
# From a complete download to seeding

Only a write task that sees every piece marked tells the downloader that it is done. A session
whose bitfield becomes complete while it is downloading therefore depends on a piece that is
still on its way. Nothing is on its way when the downloading state starts out complete, and
nothing is left on its way when the last piece fails.
-/

namespace Bqti.Session.Lifecycle

open Bqti.Core Bqti.Torrent
open Bqti.Session.Download (PieceTask PiecePc WriteTask WritePc addPiece addPiece_eq_true)

variable {sha1 : Bytes → Hash20} {verifyHash : UInt32 → Bytes → Except TorrentError Unit}
  {torrent : Metafile} {s s' : State} {l : Label} {f f' : Flow}

/-! ## Complete bitfields -/

/-- Every piece of the bitfield is present. -/
def complete (bitfield : BitField) : Bool :=
  haveAll bitfield (List.range bitfield.pieceCount) == some true

/-- If all bits are set, all are counted. -/
theorem countBelow_of_forall {bitfield : BitField} {n : Nat}
    (h : ∀ i < n, bitfield.haveBit i = some true) : bitfield.countBelow n = some n := by
  induction n with
  | zero => rfl
  | succ n ih =>
    have hn := ih fun i hi => h i (by omega)
    simp [BitField.countBelow, hn, h n (by omega)]

/-- A complete bitfield counts all of its pieces. -/
theorem count_of_complete {bitfield : BitField} (h : complete bitfield = true) :
    bitfield.count = some bitfield.pieceCount := by
  rw [complete, beq_iff_eq, haveAll_eq_true_iff] at h
  exact countBelow_of_forall fun i hi => h i (List.mem_range.mpr hi)

/-! ## Pieces on their way -/

/-- The write task has not come to its end. -/
def running : WritePc → Bool
  | .spawned | .upgraded | .verified | .written => true
  | .finished | .dropped => false

/-- Something is under way that ends in the done signal of a downloader: a marked piece that
has still to be sent, a piece in the channel, a running write task, or the signal itself. -/
def Flow.onItsWay (f : Flow) (token : Nat) : Bool :=
  (f.pieces.any fun p => p.pc == .added || p.pc == .counted) || !(f.queue token).isEmpty ||
    (f.writes.any fun w => w.gen == token && running w.pc) || f.done token

/-- A piece is on its way if some task, queue or write has it, or if the end was announced. -/
theorem onItsWay_iff {token : Nat} :
    f.onItsWay token = true ↔
      (∃ p ∈ f.pieces, p.pc = .added ∨ p.pc = .counted) ∨ f.queue token ≠ [] ∨
        (∃ w ∈ f.writes, w.gen = token ∧ running w.pc = true) ∨ f.done token = true := by
  simp [Flow.onItsWay, or_assoc]

/-! ## The conditions -/

/-- A downloading state is installed over a bitfield that counts the pieces of the torrent and
does not have them all. -/
def installsIncomplete (pieceCount : Nat) (f : Flow) : FlowLabel → Bool
  | .life (.call k _) =>
      match f.life.calls[k]? with
      | some ⟨_, .swapping (.downloading _ _ _ _)⟩ =>
          f.life.state == .cancelled ||
            (f.life.bitfield.pieceCount == pieceCount && !complete f.life.bitfield)
      | _ => true
  | _ => true

/-- While the bitfield is complete, a piece of the current downloader fails its check or its
write only if something else is on its way. -/
def failsCovered (verifyHash : UInt32 → Bytes → Except TorrentError Unit) (f : Flow) :
    FlowLabel → Bool
  | .write k ok =>
      match f.writes[k]? with
      | some t =>
          !failsWith verifyHash t ok || !complete f.life.bitfield ||
            f.life.state.token != some t.gen ||
            { f with writes := f.writes.eraseIdx k }.onItsWay t.gen
      | none => true
  | _ => true

/-- The conditions on the lifecycle under which every active state is served. -/
def servesStates (sha1 : Bytes → Hash20) (f : Flow) : FlowLabel → Bool
  | .life l => startsInTime f.life l && failsQuietly sha1 f.life l
  | _ => true

/-- All conditions together. -/
def completesProperly (sha1 : Bytes → Hash20)
    (verifyHash : UInt32 → Bytes → Except TorrentError Unit) (torrent : Metafile) (f : Flow)
    (l : FlowLabel) : Bool :=
  servesStates sha1 f l && installsIncomplete torrent.pieceHashes.length f l &&
    failsCovered verifyHash f l

/-! ## Tokens of workers -/

/-- No two workers have the same token. -/
def Distinct (s : State) : Prop := (s.given.map Spawn.token).Nodup

/-- A call that moves on changes only its own worker. -/
theorem given_setCall {u : State} {k : Nat} {c : Call} (hk : u.calls[k]? = some c) (pc : Pc) :
    (c.waiting ++ (u.setCall k c pc).given).Perm
      (Call.waiting { c with pc := pc } ++ u.given) := by
  simp only [State.given, State.setCall_calls, State.setCall_workers, ← List.append_assoc]
  exact (perm_flatMap_set Call.waiting hk).append_right _

/-- A worker that moves on is still the same. -/
theorem given_setWorker {u : State} {i : Nat} {w : Worker} (hi : u.workers[i]? = some w)
    (pc : WorkerPc) : (u.setWorker i w pc).given = u.given := by
  have hmap : (u.workers.set i { w with pc := pc }).map Worker.spawn = u.workers.map Worker.spawn :=
    map_set_eq Worker.spawn hi rfl
  simp only [State.given, State.setWorker_calls, State.setWorker_workers, hmap]

/-- Only a state that is handed over adds a worker. -/
theorem Move.given_perm (h : Move sha1 torrent s l s') :
    (∃ k fs c next, l = .call k fs ∧ s.calls[k]? = some c ∧ c.pc = .swapping next ∧
      s'.given.Perm (next.spawn.toList ++ s.given)) ∨ s'.given.Perm s.given := by
  have hrequest : ∀ (u : State) (target : Transition), (u.request target).given = u.given := by
    intro u target
    simp [State.given, State.request, Call.waiting]
  cases h with
  | request target => exact Or.inr (by rw [hrequest])
  | call hk hcall =>
    rename_i k c fs pc u
    have hu := given_setCall (hcall.calls ▸ hk) pc
    have hadv := hcall
    cases hcall with
    | swap hpc | discard hpc =>
      have hc : c.waiting = [] := by simp [Call.waiting, hpc]
      refine Or.inl ⟨k, fs, c, _, rfl, hk, hpc, ?_⟩
      rw [hc, List.nil_append, waiting_afterSwap] at hu
      simpa [State.given] using hu
    | spawn hpc =>
      rename_i worker
      have hc : c.waiting = [worker] := by simp [Call.waiting, hpc]
      have hw : (s.spawnWorker worker).given = s.given ++ [worker] := by
        simp [State.given, State.spawnWorker]
      have hnone : Call.waiting { c with pc := .finished (.ok ()) } = [] := rfl
      rw [hc, hw, hnone, List.nil_append] at hu
      exact Or.inr ((List.perm_cons worker).mp (hu.trans List.perm_append_comm))
    | refuse hpc | guard hpc | cancelInner hpc | read hpc | fail hpc | opened hpc | load hpc =>
      have hc : c.waiting = [] := by simp [Call.waiting, hpc]
      have hnone := hadv.waiting_eq_nil (by simp [hpc])
      rw [hc, hnone] at hu
      exact Or.inr (by simpa [State.given, State.newToken] using hu)
  | work hi hwork =>
    rename_i i w pc u
    refine Or.inr ?_
    rw [given_setWorker (hwork.workers ▸ hi) pc]
    cases hwork with
    | seedNext =>
      rw [hrequest]
      exact List.Perm.refl _
    | pauseNext => rw [hrequest]
    | _ => exact List.Perm.refl _

/-- Every step keeps the tokens of workers distinct. -/
theorem Move.distinct (h : Move sha1 torrent s l s') (hs : Distinct s) (hf : Fresh s) :
    Distinct s' := by
  rcases h.given_perm with ⟨k, fs, c, next, _, hk, hpc, hperm⟩ | hperm
  · refine (hperm.map Spawn.token).nodup_iff.mpr ?_
    cases hspawn : next.spawn with
    | none => exact hs
    | some v =>
      rw [Option.toList_some, List.singleton_append, List.map_cons, List.nodup_cons]
      refine ⟨fun hmem => ?_, hs⟩
      obtain ⟨u, hu, he⟩ := List.mem_map.mp hmem
      exact (hf.pending k c next v.token hk (by rw [hpc]; rfl) (spawn_token hspawn)).2.2 u hu he
  · exact (hperm.map Spawn.token).nodup_iff.mpr hs

/-- A worker that has started is not among those that wait under its token. -/
theorem Distinct.not_waiting (hs : Distinct s) {w : Worker} (hw : w ∈ s.workers)
    (hpc : w.pc ≠ .spawned) {v : Spawn} (hv : v ∈ s.waiting) : v.token ≠ w.spawn.token := by
  intro he
  rw [Distinct, State.given, List.map_append, List.map_map] at hs
  obtain ⟨_, hworkers, hdisjoint⟩ := List.nodup_append.mp hs
  rcases List.mem_append.mp hv with hcalls | hwaiting
  · exact hdisjoint v.token (List.mem_map_of_mem hcalls) w.spawn.token
      (List.mem_map_of_mem hw) he
  · obtain ⟨u, hu, hmem⟩ := List.mem_flatMap.mp hwaiting
    unfold Worker.waiting at hmem
    split at hmem
    · rename_i hspawned
      have hvu : v = u.spawn := List.mem_singleton.mp hmem
      have huw : u = w := List.inj_on_of_nodup_map hworkers hu hw (by
        simp only [Function.comp_apply, ← hvu, he])
      rw [huw] at hspawned
      exact hpc hspawned
    · contradiction

/-! ## States that wait for nothing -/

/-- A call is about to hand over a state. -/
def State.swapPending (s : State) : Prop := ∃ c ∈ s.calls, ∃ next, c.pc = .swapping next

/-- The worker has started and is no longer in its loop. -/
def Retired (s : State) (v : Spawn) : Prop :=
  v ∉ s.waiting ∧ ∀ w ∈ s.workers, w.spawn = v → w.pc ≠ .looping

/-- A call that is about to hand over a state stays so until it does. -/
theorem Move.swapPending (h : Move sha1 torrent s l s') (hs : s.swapPending) :
    s'.swapPending ∨ ∃ k fs c next, l = .call k fs ∧ s.calls[k]? = some c ∧
      c.pc = .swapping next := by
  obtain ⟨c, hc, next, hpc⟩ := hs
  obtain ⟨k, hk⟩ := List.getElem?_of_mem hc
  rcases h.call_next hk with hsame | ⟨fs, pc, u, hl, _, _, _⟩
  · exact Or.inl ⟨c, List.mem_of_getElem? hsame, next, hpc⟩
  · exact Or.inr ⟨k, fs, c, next, hl, hk, hpc⟩

/-- An active state was just handed over, or it was there and no state was handed over. -/
theorem Move.active_cases (h : Move sha1 torrent s l s') {v : Spawn}
    (hv : s'.state.spawn = some v) :
    (∃ k fs c next, l = .call k fs ∧ s.calls[k]? = some c ∧ c.pc = .swapping next ∧
      s.state ≠ .cancelled ∧ next.spawn = some v ∧ s'.bitfield = s.bitfield) ∨
    (s.state.spawn = some v ∧
      ∀ k fs c next, l = .call k fs → s.calls[k]? = some c → c.pc ≠ .swapping next) := by
  rcases h.state_origin with ⟨k, fs, c, next, hl, hk, hpc, hlive, rfl, _⟩ | ⟨_, hdead, _⟩ |
    ⟨i, w, rest, rfl, _, _, htake, rfl, _⟩ | ⟨i, w, rfl, _, _, _, rfl, _⟩ | ⟨hsame, _, _, hnot⟩
  · exact Or.inl ⟨k, fs, c, next, hl, hk, hpc, hlive, hv, by simp⟩
  · exact absurd hdead (ne_cancelled_of_spawn hv)
  · obtain ⟨worker, hstate, _, _, hrest, _⟩ := takeFor_eq_some htake
    refine Or.inr ⟨?_, fun _ _ _ _ hl => by cases hl⟩
    rw [hstate, ← hrest]
    exact hv
  · exact Or.inr ⟨hv, fun _ _ _ _ hl => by cases hl⟩
  · exact Or.inr ⟨hsame ▸ hv, hnot⟩

/-- The lifecycle writes the bitfield only in a call that then hands over a state. -/
theorem Move.bitfield_cases (h : Move sha1 torrent s l s') :
    s'.bitfield = s.bitfield ∨ s'.swapPending := by
  cases h with
  | request target => exact Or.inl rfl
  | call hk hcall =>
    cases hcall with
    | load hpc =>
      rename_i k c fs bitfield next
      refine Or.inr ⟨{ c with pc := .swapping next }, ?_, next, rfl⟩
      rw [State.setCall_calls, State.load_calls]
      exact mem_set_new hk
    | _ => exact Or.inl (by simp [State.newToken, State.spawnWorker])
  | work hi hwork => cases hwork <;> exact Or.inl rfl

/-- A worker that has started does not go back. -/
theorem Move.started (h : Move sha1 torrent s l s') {w : Worker} (hw : w ∈ s.workers)
    (hpc : w.pc ≠ .spawned) : ∃ w' ∈ s'.workers, w'.spawn = w.spawn ∧ w'.pc ≠ .spawned := by
  obtain ⟨i, hi⟩ := List.getElem?_of_mem hw
  rcases h.worker_next hi with hsame | ⟨pc, u, hwork, rfl, hmoved⟩
  · exact ⟨w, List.mem_of_getElem? hsame, rfl, hpc⟩
  · refine ⟨_, List.mem_of_getElem? hmoved, rfl, ?_⟩
    cases hwork <;> exact nofun

/-- The worker of the current state does not come back. -/
theorem Move.retired (h : Move sha1 torrent s l s') (hf : Fresh s) {v : Spawn}
    (hv : s.state.spawn = some v) (hr : Retired s v) : Retired s' v := by
  obtain ⟨hwaiting, hworkers⟩ := hr
  constructor
  · intro hmem
    rcases h.state_origin with ⟨k, fs, c, next, _, hk, hpc, _, _, hperm⟩ | ⟨hdead, _, _⟩ |
      ⟨_, _, _, _, _, _, _, _, hperm⟩ | ⟨_, _, _, _, _, _, _, hperm⟩ | ⟨_, _, hperm, _⟩
    · rcases List.mem_append.mp (hperm.subset hmem) with hnew | hold
      · have hnext : next.spawn = some v := Option.mem_toList.mp hnew
        exact (hf.pending k c next v.token hk (by rw [hpc]; rfl) (spawn_token hnext)).2.1
          (spawn_token hv)
      · exact hwaiting hold
    · exact ne_cancelled_of_spawn hv hdead
    · exact hwaiting (hperm.subset (List.mem_cons_of_mem _ hmem))
    · exact hwaiting (hperm.subset (List.mem_cons_of_mem _ hmem))
    · exact hwaiting (hperm.subset hmem)
  · intro w' hw' hspawn hloop
    obtain ⟨j, hj⟩ := List.getElem?_of_mem hw'
    rcases h.worker_origin hj with hold | ⟨_, hpc, _⟩ | ⟨w, pc, u, hi, hwork, _, rfl⟩
    · exact hworkers w' (List.mem_of_getElem? hold) hspawn hloop
    · rw [hpc] at hloop
      contradiction
    · cases hwork with
      | take hpc =>
        refine hwaiting (List.mem_append_right _ ?_)
        refine List.mem_flatMap.mpr ⟨w, List.mem_of_getElem? hi, ?_⟩
        rw [Worker.waiting, if_pos hpc]
        exact List.mem_singleton.mpr hspawn.symm
      | _ => contradiction

/-! ## What is on its way stays on its way -/

section OnItsWay

variable {k token : Nat}

/-- Moving a call of `process_piece` can only take away that call. -/
theorem onItsWay_setPiece {t : PieceTask} (hk : f.pieces[k]? = some t) (pc : PiecePc)
    (h : f.onItsWay token = true) :
    (f.setPiece k t pc).onItsWay token = true ∨ t.pc = .added ∨ t.pc = .counted := by
  rcases onItsWay_iff.mp h with ⟨p, hp, hpc⟩ | hrest
  · rcases eq_or_mem_set hk hp with rfl | hmem
    · exact Or.inr hpc
    · exact Or.inl (onItsWay_iff.mpr (Or.inl ⟨p, hmem, hpc⟩))
  · exact Or.inl (onItsWay_iff.mpr (Or.inr hrest))

/-- Moving a write task can only take away that task. -/
theorem onItsWay_setWrite {t : WriteTask} (hk : f.writes[k]? = some t) (pc : WritePc)
    (h : f.onItsWay token = true) :
    (f.setWrite k t pc).onItsWay token = true ∨ t.gen = token := by
  rcases onItsWay_iff.mp h with hpiece | hqueue | ⟨w, hw, hgen, hrun⟩ | hdone
  · exact Or.inl (onItsWay_iff.mpr (Or.inl hpiece))
  · exact Or.inl (onItsWay_iff.mpr (Or.inr (Or.inl hqueue)))
  · rcases eq_or_mem_set hk hw with rfl | hmem
    · exact Or.inr hgen
    · exact Or.inl (onItsWay_iff.mpr (Or.inr (Or.inr (Or.inl ⟨w, hmem, hgen, hrun⟩))))
  · exact Or.inl (onItsWay_iff.mpr (Or.inr (Or.inr (Or.inr hdone))))

/-- A write task that runs on keeps its downloader waiting for it. -/
theorem onItsWay_of_running {t : WriteTask} (hk : f.writes[k]? = some t) {pc : WritePc}
    (hpc : running pc = true) : (f.setWrite k t pc).onItsWay t.gen = true :=
  onItsWay_iff.mpr (Or.inr (Or.inr (Or.inl ⟨{ t with pc := pc }, mem_set_new hk, rfl, hpc⟩)))

/-- Without a write task it is the others that are on their way. -/
theorem onItsWay_of_eraseIdx {t : WriteTask} (pc : WritePc)
    (h : { f with writes := f.writes.eraseIdx k }.onItsWay token = true) :
    (f.setWrite k t pc).onItsWay token = true := by
  rcases onItsWay_iff.mp h with hpiece | hqueue | ⟨w, hw, hgen, hrun⟩ | hdone
  · exact onItsWay_iff.mpr (Or.inl hpiece)
  · exact onItsWay_iff.mpr (Or.inr (Or.inl hqueue))
  · have hmem : w ∈ f.writes.set k { t with pc := pc } := mem_set_of_mem_eraseIdx hw
    exact onItsWay_iff.mpr (Or.inr (Or.inr (Or.inl ⟨w, hmem, hgen, hrun⟩)))
  · exact onItsWay_iff.mpr (Or.inr (Or.inr (Or.inr hdone)))

end OnItsWay

/-! ## The invariant -/

/-- The lifecycle reads the bitfield nowhere in what `Owned` says. -/
theorem Owned.setBitfield (h : Owned s) (bitfield : BitField) :
    Owned { s with bitfield := bitfield } where
  fresh :=
    { disciplined := h.fresh.disciplined.setBitfield bitfield
      pending := h.fresh.pending
      distinct := h.fresh.distinct
      unique := h.fresh.unique }
  opensOwn := h.opensOwn
  stocked := h.stocked
  waiting := h.waiting
  takes := h.takes
  told := h.told
  served := h.served

/-- A complete downloading state is about to be replaced, has lost its worker, or has something
on its way. -/
structure Switching (pieceCount : Nat) (f : Flow) : Prop where
  owned : Owned f.life
  distinct : Distinct f.life
  started : ∀ t ∈ f.writes, ∃ w ∈ f.life.workers, w.spawn.token = t.gen ∧ w.pc ≠ .spawned
  sized : ∀ v, f.life.state.spawn = some v → v.kind = .downloader →
    f.life.bitfield.pieceCount = pieceCount ∨ f.life.swapPending
  live : ∀ v, f.life.state.spawn = some v → v.kind = .downloader →
    complete f.life.bitfield = true →
      f.life.swapPending ∨ Retired f.life v ∨ f.onItsWay v.token = true

/-- A session starts with the invariant. -/
theorem switching_new (n : Nat) : Switching n (.new n) where
  owned := owned_new n
  distinct := by simp [Distinct, Flow.new, State.new, State.given]
  started := by simp [Flow.new]
  sized := by simp [Flow.new, State.new, TorrentState.spawn]
  live := by simp [Flow.new, State.new, TorrentState.spawn]

/-- What the third condition says about an installed downloading state. -/
theorem incomplete_of_installsIncomplete {n k : Nat} {fs : FileSystem} {c : Call}
    {next : TorrentState} {v : Spawn} (h : installsIncomplete n f (.life (.call k fs)) = true)
    (hk : f.life.calls[k]? = some c) (hpc : c.pc = .swapping next)
    (hlive : f.life.state ≠ .cancelled) (hv : next.spawn = some v) (hkind : v.kind = .downloader) :
    f.life.bitfield.pieceCount = n ∧ complete f.life.bitfield = false := by
  obtain ⟨target, pc⟩ := c
  subst hpc
  cases next with
  | idle last => contradiction
  | cancelled => contradiction
  | seeding path resources token =>
    cases hv
    contradiction
  | downloading path dest resources token => simpa [installsIncomplete, hk, hlive] using h

/-- The steps of the lifecycle keep the invariant. -/
theorem Switching.life {n : Nat} (h : Switching n f) {life : State}
    (hlife : Move sha1 torrent f.life l life)
    (hserves : servesStates sha1 f (.life l) = true)
    (hinstalls : installsIncomplete n f (.life l) = true) :
    Switching n { f with life := life } := by
  have hfresh := h.owned.fresh
  -- without a replacement, a call that is about to hand over a state is still there
  have hswap : (∀ k fs c next, l = .call k fs → f.life.calls[k]? = some c →
      c.pc ≠ .swapping next) → f.life.swapPending → life.swapPending := by
    intro hnot hp
    rcases hlife.swapPending hp with hp' | ⟨k, fs, c, next, hl, hk, hpc⟩
    · exact hp'
    · exact absurd hpc (hnot k fs c next hl hk)
  refine ⟨?_, hlife.distinct h.distinct hfresh, ?_, ?_, ?_⟩
  · exact hlife.owned h.owned (Bool.and_eq_true_iff.mp hserves)
  · intro t ht
    obtain ⟨w, hw, hgen, hpc⟩ := h.started t ht
    obtain ⟨w', hw', hspawn, hpc'⟩ := hlife.started hw hpc
    exact ⟨w', hw', by rw [hspawn, hgen], hpc'⟩
  · intro v hv hkind
    rcases hlife.active_cases hv with ⟨k, fs, c, next, rfl, hk, hpc, hlive, hnext, hsame⟩ |
      ⟨hold, hnot⟩
    · obtain ⟨hsize, _⟩ :=
        incomplete_of_installsIncomplete hinstalls hk hpc hlive hnext hkind
      exact Or.inl (by rw [hsame, hsize])
    · rcases hlife.bitfield_cases with hsame | hp
      · exact (h.sized v hold hkind).imp (fun hsize => by rw [hsame, hsize]) (hswap hnot)
      · exact Or.inr hp
  · intro v hv hkind hcomplete
    rcases hlife.active_cases hv with ⟨k, fs, c, next, rfl, hk, hpc, hlive, hnext, hsame⟩ |
      ⟨hold, hnot⟩
    · obtain ⟨_, hno⟩ := incomplete_of_installsIncomplete hinstalls hk hpc hlive hnext hkind
      rw [hsame, hno] at hcomplete
      contradiction
    · rcases hlife.bitfield_cases with hsame | hp
      · rw [hsame] at hcomplete
        rcases h.live v hold hkind hcomplete with hp | hr | hway
        · exact Or.inl (hswap hnot hp)
        · exact Or.inr (Or.inl (hlife.retired hfresh hold hr))
        · exact Or.inr (Or.inr hway)
      · exact Or.inl hp

/-- A step that changes neither the lifecycle nor its bitfield keeps the invariant when what
was on its way to the current downloader is, or that has lost its worker. -/
theorem Switching.of_life_eq {n : Nat} (h : Switching n f) (hlife : f'.life = f.life)
    (hwrites : ∀ t ∈ f'.writes, (∃ t' ∈ f.writes, t'.gen = t.gen) ∨
      ∃ w ∈ f.life.workers, w.spawn.token = t.gen ∧ w.pc ≠ .spawned)
    (hway : ∀ v, f.life.state.spawn = some v → v.kind = .downloader →
      complete f.life.bitfield = true → f.onItsWay v.token = true →
        f.life.swapPending ∨ Retired f.life v ∨ f'.onItsWay v.token = true) :
    Switching n f' where
  owned := hlife ▸ h.owned
  distinct := hlife ▸ h.distinct
  started := by
    intro t ht
    rw [hlife]
    rcases hwrites t ht with ⟨t', ht', hgen⟩ | hw
    · exact hgen ▸ h.started t' ht'
    · exact hw
  sized := hlife ▸ h.sized
  live := by
    rw [hlife]
    intro v hv hkind hcomplete
    rcases h.live v hv hkind hcomplete with hp | hr | hold
    · exact Or.inl hp
    · exact Or.inr (Or.inl hr)
    · exact hway v hv hkind hcomplete hold

/-- A moved write task keeps its downloader. -/
theorem gen_of_mem_setWrite {k : Nat} {t : WriteTask} (hk : f.writes[k]? = some t)
    (pc : WritePc) : ∀ u ∈ f.writes.set k { t with pc := pc }, ∃ u' ∈ f.writes, u'.gen = u.gen :=
  forall_mem_set (fun u hu => ⟨u, hu, rfl⟩) ⟨t, List.mem_of_getElem? hk, rfl⟩

/-- Moving a write task keeps the invariant when its own downloader still has something on its
way or has lost its worker. -/
theorem Switching.setWrite {n k : Nat} {t : WriteTask} (h : Switching n f)
    (hk : f.writes[k]? = some t) (pc : WritePc)
    (hown : ∀ v, f.life.state.spawn = some v → v.kind = .downloader →
      complete f.life.bitfield = true → v.token = t.gen →
        f.life.swapPending ∨ Retired f.life v ∨ (f.setWrite k t pc).onItsWay t.gen = true) :
    Switching n (f.setWrite k t pc) := by
  refine h.of_life_eq rfl (fun u hu => Or.inl (gen_of_mem_setWrite hk pc u hu)) ?_
  intro v hv hkind hcomplete hway
  rcases onItsWay_setWrite hk pc hway with hnext | hgen
  · exact Or.inr (Or.inr hnext)
  · rw [← hgen]
    exact hown v hv hkind hcomplete hgen.symm

/-- How many pieces are on their way to the disk does not matter. -/
theorem Switching.settle {n : Nat} (h : Switching n f) : Switching n f.settle :=
  h.of_life_eq rfl (fun t ht => Or.inl ⟨t, ht, rfl⟩) fun _ _ _ _ hway => Or.inr (Or.inr hway)

/-- A signal keeps the invariant. -/
theorem Switching.sendDone {n : Nat} (h : Switching n f) (token : Nat) :
    Switching n (f.sendDone token) := by
  refine h.of_life_eq rfl (fun t ht => Or.inl ⟨t, ht, rfl⟩) fun v _ _ _ hway => ?_
  refine Or.inr (Or.inr ?_)
  rcases onItsWay_iff.mp hway with hpiece | hqueue | hwrite | hdone
  · exact onItsWay_iff.mpr (Or.inl hpiece)
  · exact onItsWay_iff.mpr (Or.inr (Or.inl hqueue))
  · exact onItsWay_iff.mpr (Or.inr (Or.inr (Or.inl hwrite)))
  · refine onItsWay_iff.mpr (Or.inr (Or.inr (Or.inr ?_)))
    by_cases he : v.token = token
    · rw [he]
      exact Function.update_self ..
    · exact (Function.update_of_ne he ..).trans hdone

/-- The channel of a downloader closes when its worker has ended. -/
theorem retired_of_channel_closed {v : Spawn} (h : s.channelOpen v.token = false) :
    Retired s v := by
  simp only [State.channelOpen, Bool.or_eq_false_iff, List.any_eq_false, Bool.and_eq_true,
    beq_iff_eq, bne_iff_ne, ne_eq, not_and, not_not] at h
  refine ⟨fun hmem => h.1 v hmem rfl, fun w hw hspawn hpc => ?_⟩
  have hstopped := h.2 w hw (by rw [hspawn])
  rw [hpc] at hstopped
  contradiction

/-- A write task finds the resources of its downloader gone when that has left its loop. -/
theorem Switching.retired_of_not_held {n : Nat} (h : Switching n f) {t : WriteTask}
    (ht : t ∈ f.writes) (hheld : f.held t.gen = false) {v : Spawn} (hv : v.token = t.gen) :
    Retired f.life v := by
  obtain ⟨w, hw, hgen, hpc⟩ := h.started t ht
  refine ⟨fun hmem => ?_, fun u hu hspawn hloop => ?_⟩
  · exact h.distinct.not_waiting hw hpc hmem (hv.trans hgen.symm)
  · simp only [Flow.held, Bool.or_eq_false_iff, List.any_eq_false, Bool.and_eq_true,
      beq_iff_eq, not_and] at hheld
    exact hheld.1 u hu (by rw [hspawn, hv]) hloop

/-- What the fourth condition says about a piece that fails. -/
theorem onItsWay_of_failsCovered {k : Nat} {t : WriteTask} {ok : Bool}
    (h : failsCovered verifyHash f (.write k ok) = true) (hk : f.writes[k]? = some t)
    (hfails : failsWith verifyHash t ok = true) (hcomplete : complete f.life.bitfield = true)
    (htoken : f.life.state.token = some t.gen) :
    { f with writes := f.writes.eraseIdx k }.onItsWay t.gen = true := by
  simpa [failsCovered, hk, hfails, hcomplete, htoken] using h

/-- Every step keeps the invariant. -/
theorem FlowMove.switching {l : FlowLabel} (h : FlowMove sha1 verifyHash torrent f l f')
    (hs : Switching torrent.pieceHashes.length f)
    (hl : completesProperly sha1 verifyHash torrent f l = true) :
    Switching torrent.pieceHashes.length f' := by
  simp only [completesProperly, Bool.and_eq_true] at hl
  obtain ⟨⟨hserves, hinstalls⟩, hfails⟩ := hl
  have hold : ∀ t ∈ f.writes, (∃ t' ∈ f.writes, t'.gen = t.gen) ∨
      ∃ w ∈ f.life.workers, w.spawn.token = t.gen ∧ w.pc ≠ .spawned :=
    fun t ht => Or.inl ⟨t, ht, rfl⟩
  cases h with
  | life hlife => exact hs.life (step_move hlife) hserves hinstalls
  | receive index data =>
    refine hs.of_life_eq rfl hold fun v _ _ _ hway => Or.inr (Or.inr ?_)
    rcases onItsWay_iff.mp hway with ⟨p, hp, hpc⟩ | hrest
    · exact onItsWay_iff.mpr (Or.inl ⟨p, List.mem_append_left _ hp, hpc⟩)
    · exact onItsWay_iff.mpr (Or.inr hrest)
  | accept hk hpc hadd =>
    have hsize := BitField.set_pieceCount (addPiece_eq_true hadd).2
    refine ⟨hs.owned.setBitfield _, hs.distinct, hs.started, ?_, ?_⟩
    · intro v hv hkind
      exact (hs.sized v hv hkind).imp_left fun h => hsize.trans h
    · intro v _ _ _
      exact Or.inr (Or.inr (onItsWay_iff.mpr (Or.inl ⟨_, mem_set_new hk, Or.inl rfl⟩)))
  | decline hk hpc =>
    refine hs.of_life_eq rfl hold fun v _ _ _ hway => Or.inr (Or.inr ?_)
    rcases onItsWay_setPiece hk .finished hway with hnext | hbusy
    · exact hnext
    · rw [hpc] at hbusy
      rcases hbusy with hbusy | hbusy <;> contradiction
  | count hk hpc =>
    refine hs.of_life_eq rfl hold fun v _ _ _ _ => Or.inr (Or.inr ?_)
    exact onItsWay_iff.mpr (Or.inl ⟨_, mem_set_new hk, Or.inr rfl⟩)
  | enqueue hk hpc htoken =>
    refine hs.of_life_eq rfl hold fun v hv _ _ _ => Or.inr (Or.inr ?_)
    have he : v.token = _ := Option.some.inj ((spawn_token hv).symm.trans htoken)
    refine onItsWay_iff.mpr (Or.inr (Or.inl ?_))
    simp [Flow.setQueue, Flow.setPiece, he]
  | lose hk hpc hlost =>
    refine hs.of_life_eq rfl hold fun v hv hkind _ _ => Or.inr (Or.inl ?_)
    apply retired_of_channel_closed
    cases hstate : f.life.state with
    | downloading path dest resources token =>
      rw [hstate] at hv
      cases hv
      exact hlost path dest resources token hstate
    | seeding path resources token =>
      rw [hstate] at hv
      cases hv
      contradiction
    | idle last =>
      rw [hstate] at hv
      contradiction
    | cancelled =>
      rw [hstate] at hv
      contradiction
  | recv hi hpc hqueue =>
    rename_i i w index data rest
    refine hs.of_life_eq rfl ?_ fun v _ _ _ hway => Or.inr (Or.inr ?_)
    · refine forall_mem_concat hold (Or.inr ⟨w, List.mem_of_getElem? hi, rfl, ?_⟩)
      rw [hpc]
      exact nofun
    · by_cases he : v.token = w.spawn.token
      · refine onItsWay_iff.mpr (Or.inr (Or.inr (Or.inl
          ⟨⟨w.spawn.token, index, data, .spawned⟩, ?_, he.symm, rfl⟩)))
        exact List.mem_append_right _ (List.mem_singleton.mpr rfl)
      · rcases onItsWay_iff.mp hway with hpiece | hqueue | ⟨u, hu, hrun⟩ | hdone
        · exact onItsWay_iff.mpr (Or.inl hpiece)
        · refine onItsWay_iff.mpr (Or.inr (Or.inl ?_))
          simpa [Flow.setQueue, Function.update_of_ne he] using hqueue
        · exact onItsWay_iff.mpr (Or.inr (Or.inr (Or.inl ⟨u, List.mem_append_left _ hu, hrun⟩)))
        · exact onItsWay_iff.mpr (Or.inr (Or.inr (Or.inr hdone)))
  | upgrade ok hk hpc | verify ok hk hpc =>
    exact hs.setWrite hk _ fun _ _ _ _ _ => Or.inr (Or.inr (onItsWay_of_running hk rfl))
  | wrote ok hk hpc =>
    exact hs.settle.setWrite hk _ fun _ _ _ _ _ => Or.inr (Or.inr (onItsWay_of_running hk rfl))
  | drop ok hk hpc hheld =>
    refine hs.setWrite hk _ fun v _ _ _ hgen => Or.inr (Or.inl ?_)
    exact hs.retired_of_not_held (List.mem_of_getElem? hk) hheld hgen
  | fail ok hk hfail =>
    refine hs.settle.setWrite hk _ fun v hv _ hcomplete hgen => Or.inr (Or.inr ?_)
    have htoken : f.life.state.token = some _ := hgen ▸ spawn_token hv
    exact onItsWay_of_eraseIdx _ (onItsWay_of_failsCovered hfails hk hfail hcomplete htoken)
  | signal ok hk hpc =>
    refine (hs.sendDone _).setWrite hk _ fun _ _ _ _ _ => Or.inr (Or.inr ?_)
    exact onItsWay_iff.mpr (Or.inr (Or.inr (Or.inr (Function.update_self ..))))
  | skip ok hk hpc hcount =>
    refine hs.setWrite hk _ fun v hv hkind hcomplete _ => Or.inl ?_
    rcases hs.sized v hv hkind with hsize | hp
    · exact absurd (hsize ▸ count_of_complete hcomplete) hcount
    · exact hp

/-! ## Runs -/

/-- Nothing is under way: the lifecycle has settled, no piece is being processed, the channel of
the current downloader is empty, no write task runs, and its downloader has no signal left to
act on. -/
def Flow.quiet (f : Flow) : Bool :=
  f.life.settled && (f.pieces.all fun p => p.pc == .finished) &&
    f.life.state.token.all (fun token => (f.queue token).isEmpty && !f.done token) &&
    f.writes.all fun w => !running w.pc

/-- The session is downloading. -/
def TorrentState.isDownloading : TorrentState → Bool
  | .downloading _ _ _ _ => true
  | _ => false

/-- In a quiet session nothing is on its way to the current downloader. -/
theorem not_onItsWay_of_quiet (h : f.quiet = true) {token : Nat}
    (ht : f.life.state.token = some token) : f.onItsWay token = false := by
  simp only [Flow.quiet, ht, Option.all_some, Bool.and_eq_true, List.all_eq_true, beq_iff_eq,
    List.isEmpty_iff, Bool.not_eq_true'] at h
  obtain ⟨⟨⟨_, hpieces⟩, hqueue, hdone⟩, hwrites⟩ := h
  rw [← Bool.not_eq_true, onItsWay_iff]
  rintro (⟨p, hp, hpc⟩ | hq | ⟨w, hw, _, hrun⟩ | hd)
  · rw [hpieces p hp] at hpc
    rcases hpc with hpc | hpc <;> contradiction
  · exact hq hqueue
  · rw [hwrites w hw] at hrun
    contradiction
  · rw [hdone] at hd
    contradiction

/-- In a run in which every active state is served, a downloading state is only installed over
an incomplete bitfield of the torrent's size, and no piece of a complete download fails while
nothing else is on its way, the session is never quiet and downloading with every piece. -/
theorem no_complete_download_stuck (sha1 : Bytes → Hash20)
    (verifyHash : UInt32 → Bytes → Except TorrentError Unit) (torrent : Metafile)
    (labels : List FlowLabel) (f : Flow)
    (hcond : Along (flowStep sha1 verifyHash torrent)
      (fun f l => completesProperly sha1 verifyHash torrent f l = true)
      (.new torrent.pieceHashes.length) labels)
    (h : run (flowStep sha1 verifyHash torrent) (.new torrent.pieceHashes.length) labels =
      some f) :
    ¬ (f.quiet = true ∧ f.life.state.isDownloading = true ∧
      complete f.life.bitfield = true) := by
  have hinv : Switching torrent.pieceHashes.length f :=
    run_invariant_along (fun _ _ _ hs hl ha => (flowStep_move ha).switching hs hl)
      (switching_new _) hcond h
  rintro ⟨hquiet, hdown, hcomplete⟩
  have hsettled : f.life.settled = true := by
    simp only [Flow.quiet, Bool.and_eq_true] at hquiet
    exact hquiet.1.1.1
  obtain ⟨v, hv, hkind⟩ : ∃ v, f.life.state.spawn = some v ∧ v.kind = .downloader := by
    cases hstate : f.life.state with
    | downloading path dest resources token => exact ⟨_, rfl, rfl⟩
    | _ =>
      rw [hstate] at hdown
      contradiction
  obtain ⟨w, hw, hspawn, hloop⟩ := hinv.owned.looping hsettled hv
  rcases hinv.live v hv hkind hcomplete with ⟨c, hc, next, hpc⟩ | hr | hway
  · have hover := List.all_eq_true.mp (Bool.and_eq_true_iff.mp hsettled).1 c hc
    rw [hpc] at hover
    contradiction
  · exact hr.2 w hw hspawn hloop
  · rw [not_onItsWay_of_quiet hquiet (spawn_token hv)] at hway
    contradiction

/-- A download whose only piece arrives, is written and starts the seeder. -/
def sampleSwitched : List FlowLabel :=
  List.map .life (sampleDownload ++ [.start 0]) ++ [.receive 0 [0x61], .piece 0, .piece 0, .piece 0,
    .recv 0, .write 0 true, .write 0 true, .write 0 true, .write 0 true] ++
    List.map .life ([.leave 0 .done, .check 0, .conclude 0] ++
      List.replicate 6 (.call 1 (sampleFiles none)) ++ [.start 1])

/-- The sample download is complete and has gone on to seeding. -/
theorem no_complete_download_stuck_sample :
    ∃ f, run (flowStep sampleSha1 (fun _ _ => .ok ()) sampleTorrent)
        (.new sampleTorrent.pieceHashes.length) sampleSwitched = some f ∧
      f.quiet = true ∧ complete f.life.bitfield = true ∧
      ¬ (f.quiet = true ∧ f.life.state.isDownloading = true ∧
        complete f.life.bitfield = true) := by
  have hrun : ((run (flowStep sampleSha1 (fun _ _ => .ok ()) sampleTorrent)
      (.new sampleTorrent.pieceHashes.length) sampleSwitched).any fun f =>
        f.quiet = true ∧ complete f.life.bitfield = true) = true := by
    decide +kernel
  obtain ⟨f, hf, hquiet, hcomplete⟩ := exists_of_any hrun
  exact ⟨f, hf, hquiet, hcomplete, no_complete_download_stuck sampleSha1 (fun _ _ => .ok ())
    sampleTorrent sampleSwitched f (by decide +kernel) hf⟩

/-- A download that finds a resume file with every piece. -/
def sampleResumedComplete : List FlowLabel :=
  List.map .life (.request (.download sampleTorrent ['/', 'h']) ::
    List.replicate 6 (.call 0 (sampleFiles (some ⟨List.replicate 20 1, [0x80], 1⟩))) ++
      [.start 0])

/-- A check that no piece passes. -/
def sampleMismatch (_ : UInt32) (_ : Bytes) : Except TorrentError Unit :=
  .error (.notValid "piece 0 hash mismatch")

/-- A download whose only piece does not pass its check. -/
def sampleFailedPiece : List FlowLabel :=
  List.map .life (sampleDownload ++ [.start 0]) ++ [.receive 0 [0x61], .piece 0, .piece 0, .piece 0,
    .recv 0, .write 0 true, .write 0 true]

/-- Both stay downloading with every piece marked and nothing under way. -/
theorem complete_download_stuck :
    (∃ f, run (flowStep sampleSha1 (fun _ _ => .ok ()) sampleTorrent)
        (.new sampleTorrent.pieceHashes.length) sampleResumedComplete = some f ∧
      f.quiet = true ∧ f.life.state.isDownloading = true ∧ complete f.life.bitfield = true) ∧
    ∃ f, run (flowStep sampleSha1 sampleMismatch sampleTorrent)
        (.new sampleTorrent.pieceHashes.length) sampleFailedPiece = some f ∧
      f.quiet = true ∧ f.life.state.isDownloading = true ∧ complete f.life.bitfield = true := by
  have hresume : ((run (flowStep sampleSha1 (fun _ _ => .ok ()) sampleTorrent)
      (.new sampleTorrent.pieceHashes.length) sampleResumedComplete).any fun f =>
        f.quiet = true ∧ f.life.state.isDownloading = true ∧
          complete f.life.bitfield = true) = true := by
    decide +kernel
  have hfailed : ((run (flowStep sampleSha1 sampleMismatch sampleTorrent)
      (.new sampleTorrent.pieceHashes.length) sampleFailedPiece).any fun f =>
        f.quiet = true ∧ f.life.state.isDownloading = true ∧
          complete f.life.bitfield = true) = true := by
    decide +kernel
  obtain ⟨f, hf, hp⟩ := exists_of_any hresume
  obtain ⟨g, hg, hq⟩ := exists_of_any hfailed
  exact ⟨⟨f, hf, hp⟩, g, hg, hq⟩

end Bqti.Session.Lifecycle
