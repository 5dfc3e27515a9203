import Bqti.Session.Lifecycle.Flow

/-!
# One download inside the lifecycle

The tasks that bring pieces in are modelled twice: by themselves, with the generations of one
download, and inside the lifecycle of a session, whose downloaders are named by their tokens. Here a
state of the second kind views one of the first, and every step of `process_piece`, of a worker that
receives and of a write task is a step of the lifecycle with the same pieces, channels and counters.
-/

namespace Bqti.Session.Lifecycle

open Bqti.Core Bqti.Torrent
open Bqti.Session.Download (PieceTask PiecePc WriteTask WritePc addPiece channelCapacity)

/-! ## The view -/

/-- A write task under the token of its worker. -/
def renamed (token : Nat → Nat) (t : WriteTask) : WriteTask := { t with gen := token t.gen }

/-- The state and the workers of a download are those of the lifecycle: the current channel, the
channels that are open, and who holds resources or receives. -/
structure Control (token : Nat → Nat) (s : Download.State) (life : State) : Prop where
  current : ∀ gen resources, s.state = .downloading gen resources →
    ∃ path dest taken, life.state = .downloading path dest taken (token gen)
  other : (∀ gen resources, s.state ≠ .downloading gen resources) →
    ∀ path dest taken t, life.state ≠ .downloading path dest taken t
  opened : ∀ gen w, s.workers[gen]? = some w →
    life.channelOpen (token gen) = (w.pc != .stopped)
  looping : ∀ v ∈ life.workers, v.pc = .looping → ∀ gen, v.spawn.token = token gen →
    ∃ w, s.workers[gen]? = some w ∧ w.pc.ownsResources = true
  owned : ∀ gen w, s.workers[gen]? = some w → w.pc.ownsResources = true →
    ∃ v ∈ life.workers, v.spawn.token = token gen ∧ (v.pc = .looping ∨ v.pc = .left)
  receiving : ∀ gen w, s.workers[gen]? = some w → w.pc = .looping →
    ∃ (i : Nat) (v : Worker), life.workers[i]? = some v ∧ v.spawn.kind = .downloader ∧
      v.spawn.token = token gen ∧ v.pc = .looping

/-- A session in its lifecycle views a download: the same pieces on their way, under the tokens of
the workers. -/
structure Views (token : Nat → Nat) (s : Download.State) (f : Flow) : Prop where
  bitfield : f.life.bitfield = s.bitfield
  pieces : f.pieces = s.pieces
  writes : f.writes = s.writes.map (renamed token)
  pendingWrites : f.pendingWrites = s.pendingWrites
  channels : ∀ gen w, s.workers[gen]? = some w →
    f.queue (token gen) = w.queue ∧ f.done (token gen) = w.doneSent
  control : Control token s f.life

variable {token : Nat → Nat} {s s' : Download.State} {f : Flow} {life : State} {k : Nat}

/-- New sessions view each other. -/
theorem views_new (token : Nat → Nat) (torrent : Download.Metadata) (resume : Option BitField) :
    Views token (.new torrent resume) (.new torrent.pieceHashes.length) where
  bitfield := rfl
  pieces := rfl
  writes := rfl
  pendingWrites := rfl
  channels _ _ hw := by simp [Download.State.new] at hw
  control :=
    { current := by simp [Download.State.new]
      other := by simp [Flow.new, State.new]
      opened := by simp [Download.State.new]
      looping := by simp [Flow.new, State.new]
      owned := by simp [Download.State.new]
      receiving := by simp [Download.State.new] }

/-- Where the lifecycle sees a worker of a download. -/
def seenPc : Download.WorkerPc → WorkerPc
  | .spawned => .spawned
  | .looping | .persisting _ => .looping
  | .left _ | .leftPersisting _ _ | .persisted _ => .left
  | .released _ | .completed _ => .concluding
  | .stopped => .stopped

/-- A worker owns resources as long as it is seen in its loop or just behind it. -/
theorem ownsResources_iff {pc : Download.WorkerPc} :
    pc.ownsResources = true ↔ seenPc pc = .looping ∨ seenPc pc = .left := by
  cases pc <;> simp [seenPc, Download.WorkerPc.ownsResources]

/-- The state of the lifecycle during a download. -/
def seenState : Download.TorrentState → TorrentState
  | .idle _ => .idle none
  | .downloading gen _ => .downloading [] [] none gen
  | .cancelled => .cancelled

/-- A session in its lifecycle that does what a download does. -/
def Flow.ofDownload (s : Download.State) : Flow where
  life :=
    { state := seenState s.state
      bitfield := s.bitfield
      tokens := s.workers.map (·.cancelled)
      calls := []
      workers := s.workers.mapIdx fun gen w => ⟨⟨.downloader, gen, []⟩, seenPc w.pc⟩
      swaps := []
      takes := [] }
  pieces := s.pieces
  queue gen := ((s.workers[gen]?).map (·.queue)).getD []
  done gen := (s.workers[gen]?).any (·.doneSent)
  writes := s.writes
  pendingWrites := s.pendingWrites

/-- The worker of a generation keeps its number as its token. -/
theorem workers_ofDownload (s : Download.State) (gen : Nat) :
    (Flow.ofDownload s).life.workers[gen]? =
      (s.workers[gen]?).map fun w => ⟨⟨.downloader, gen, []⟩, seenPc w.pc⟩ := List.getElem?_mapIdx

/-- The workers of the session are those of the download. -/
theorem mem_workers_ofDownload {v : Worker} : v ∈ (Flow.ofDownload s).life.workers ↔
    ∃ gen w, s.workers[gen]? = some w ∧ v = ⟨⟨.downloader, gen, []⟩, seenPc w.pc⟩ := by
  rw [List.mem_iff_getElem?]
  refine exists_congr fun gen => ?_
  rw [workers_ofDownload, Option.map_eq_some_iff]
  exact exists_congr fun w => and_congr_right fun _ => eq_comm

/-- The channel of a worker is open until the worker has stopped. -/
theorem channelOpen_ofDownload {gen : Nat} {w : Download.Worker} (hw : s.workers[gen]? = some w) :
    (Flow.ofDownload s).life.channelOpen gen = (w.pc != .stopped) := by
  have hmine : ∀ v ∈ (Flow.ofDownload s).life.workers, v.spawn.token = gen →
      v.pc = seenPc w.pc := by
    intro v hv htoken
    obtain ⟨other, u, hu, rfl⟩ := mem_workers_ofDownload.mp hv
    obtain rfl : other = gen := htoken
    obtain rfl := Option.some.inj (hu.symm.trans hw)
    rfl
  rw [Bool.eq_iff_iff, bne_iff_ne]
  simp only [State.channelOpen, Bool.or_eq_true, List.any_eq_true, Bool.and_eq_true, beq_iff_eq,
    bne_iff_ne]
  constructor
  · rintro (⟨spawn, hwaiting, htoken⟩ | ⟨v, hv, htoken, hopen⟩) hstopped
    · obtain ⟨v, hv, hspawn⟩ := List.mem_flatMap.mp
        (show spawn ∈ (Flow.ofDownload s).life.workers.flatMap Worker.waiting from hwaiting)
      rw [Worker.waiting] at hspawn
      split at hspawn
      · obtain rfl := List.mem_singleton.mp hspawn
        have hpc := hmine v hv htoken
        rw [‹v.pc = .spawned›, hstopped] at hpc
        cases hpc
      · cases hspawn
    · exact hopen (by rw [hmine v hv htoken, hstopped]; rfl)
  · intro hopen
    refine Or.inr ⟨_, mem_workers_ofDownload.mpr ⟨gen, w, hw, rfl⟩, rfl, ?_⟩
    cases hpc : w.pc with
    | stopped => exact absurd hpc hopen
    | _ => simp [seenPc]

/-- Every download is viewed by a session in its lifecycle. -/
theorem views_ofDownload (s : Download.State) : Views id s (Flow.ofDownload s) where
  bitfield := rfl
  pieces := rfl
  writes := (List.map_id s.writes).symm
  pendingWrites := rfl
  channels gen w hw := by simp [Flow.ofDownload, hw]
  control :=
    { current := by
        intro gen resources hstate
        exact ⟨[], [], none, by simp [Flow.ofDownload, hstate, seenState]⟩
      other := by
        intro hother path dest taken t hstate
        cases hs : s.state with
        | downloading gen resources => exact hother gen resources hs
        | idle | cancelled => simp [Flow.ofDownload, hs, seenState] at hstate
      opened := fun gen w hw => channelOpen_ofDownload hw
      looping := by
        intro v hv hloop gen htoken
        obtain ⟨other, w, hw, rfl⟩ := mem_workers_ofDownload.mp hv
        obtain rfl : other = gen := htoken
        exact ⟨w, hw, ownsResources_iff.mpr (Or.inl hloop)⟩
      owned := by
        intro gen w hw hown
        exact ⟨_, mem_workers_ofDownload.mpr ⟨gen, w, hw, rfl⟩, rfl, ownsResources_iff.mp hown⟩
      receiving := by
        intro gen w hw hloop
        refine ⟨gen, _, by rw [workers_ofDownload, hw]; rfl, rfl, rfl, ?_⟩
        exact congrArg seenPc hloop }

/-- The control does not read the bitfield. -/
theorem Control.setBitfield (h : Control token s life) (bitfield : BitField) :
    Control token s { life with bitfield := bitfield } :=
  ⟨h.current, h.other, h.opened, h.looping, h.owned, h.receiving⟩

/-- Nor does it read the channels and the tasks of the download. -/
theorem Control.of_pcs (h : Control token s life) (hstate : s'.state = s.state)
    (hpcs : s'.workers.map (·.pc) = s.workers.map (·.pc)) : Control token s' life := by
  have hworker : ∀ {t u : Download.State} {gen : Nat} {w : Download.Worker},
      t.workers.map (·.pc) = u.workers.map (·.pc) → t.workers[gen]? = some w →
      ∃ w', u.workers[gen]? = some w' ∧ w'.pc = w.pc := by
    intro t u gen w hsame hw
    have hpc : (u.workers.map (·.pc))[gen]? = some w.pc := by
      rw [← hsame, List.getElem?_map, hw, Option.map_some]
    rw [List.getElem?_map] at hpc
    exact Option.map_eq_some_iff.mp hpc
  refine ⟨?_, ?_, fun gen w hw => ?_, fun v hv hloop gen htoken => ?_, fun gen w hw hown => ?_,
    fun gen w hw hloop => ?_⟩
  · rw [hstate]
    exact h.current
  · rw [hstate]
    exact h.other
  · obtain ⟨w', hw', hpc⟩ := hworker hpcs hw
    rw [h.opened gen w' hw', hpc]
  · obtain ⟨w, hw, hown⟩ := h.looping v hv hloop gen htoken
    obtain ⟨w', hw', hpc⟩ := hworker hpcs.symm hw
    exact ⟨w', hw', hpc ▸ hown⟩
  · obtain ⟨w', hw', hpc⟩ := hworker hpcs hw
    exact h.owned gen w' hw' (hpc ▸ hown)
  · obtain ⟨w', hw', hpc⟩ := hworker hpcs hw
    exact h.receiving gen w' hw' (hpc.trans hloop)

/-! ## Calls of `process_piece` -/

/-- Moving a call in both. -/
theorem Views.setPiece (h : Views token s f) (k : Nat) (t : PieceTask) (pc : PiecePc) :
    Views token (s.setPiece k t pc) (f.setPiece k t pc) where
  bitfield := h.bitfield
  pieces := by rw [Flow.setPiece, Download.State.setPiece, h.pieces]
  writes := h.writes
  pendingWrites := h.pendingWrites
  channels := h.channels
  control := h.control.of_pcs rfl rfl

/-- Taking a count back in both. -/
theorem Views.settle (h : Views token s f) :
    Views token { s with pendingWrites := s.pendingWrites - 1 } f.settle where
  bitfield := h.bitfield
  pieces := h.pieces
  writes := h.writes
  pendingWrites := by rw [Flow.settle, h.pendingWrites]
  channels := h.channels
  control := h.control.of_pcs rfl rfl

/-- Replacing the queue of a worker in both. -/
theorem Views.setQueue (hinj : Function.Injective token) (h : Views token s f) {gen : Nat}
    {w : Download.Worker} (hw : s.workers[gen]? = some w) (queue : List (UInt32 × Bytes)) :
    Views token (s.setWorker gen { w with queue := queue }) (f.setQueue (token gen) queue) where
  bitfield := h.bitfield
  pieces := h.pieces
  writes := h.writes
  pendingWrites := h.pendingWrites
  channels other v hv := by
    rcases of_getElem?_set hv with ⟨rfl, rfl⟩ | ⟨hne, hv⟩
    · exact ⟨Function.update_self .., (h.channels _ w hw).2⟩
    · obtain ⟨hqueue, hdone⟩ := h.channels other v hv
      exact ⟨(Function.update_of_ne (hinj.ne hne) ..).trans hqueue, hdone⟩
  control := h.control.of_pcs rfl (map_set_eq _ hw rfl)

/-- Sending a piece does the same in both. -/
theorem sendDownloadedPiece_views (hinj : Function.Injective token) (h : Views token s f)
    {index : UInt32} {data : Bytes}
    (hsend : Download.sendDownloadedPiece s index data = some s') :
    ∃ f', sendDownloadedPiece f index data = some f' ∧ Views token s' f' := by
  unfold Download.sendDownloadedPiece at hsend
  unfold sendDownloadedPiece
  split at hsend
  · rename_i gen resources hstate
    obtain ⟨path, dest, taken, hlife⟩ := h.control.current gen resources hstate
    split at hsend
    · contradiction
    · rename_i w hw
      obtain ⟨hqueue, -⟩ := h.channels gen w hw
      have hopen := h.control.opened gen w hw
      rw [hlife]
      split at hsend
      · rename_i hstopped
        obtain rfl := Option.some.inj hsend
        rw [hstopped] at hopen
        exact ⟨f.settle, by simp [hopen], h.settle⟩
      · rename_i hrunning
        have hopen' : f.life.channelOpen (token gen) = true := by
          rw [hopen]
          simpa using hrunning
        split at hsend
        · rename_i hroom
          obtain rfl := Option.some.inj hsend
          refine ⟨f.setQueue (token gen) (f.queue (token gen) ++ [(index, data)]), ?_, ?_⟩
          · simp [hopen', hqueue, hroom]
          · rw [hqueue]
            exact h.setQueue hinj hw _
        · contradiction
  · rename_i hother
    obtain rfl := Option.some.inj hsend
    refine ⟨f.settle, ?_, h.settle⟩
    split
    · rename_i path dest taken t hlife
      exact absurd hlife (h.control.other hother path dest taken t)
    · rfl

/-- Marking a piece in both. -/
theorem Views.setBitfield (h : Views token s f) (bitfield : BitField) :
    Views token { s with bitfield := bitfield } (f.setBitfield bitfield) where
  bitfield := rfl
  pieces := h.pieces
  writes := h.writes
  pendingWrites := h.pendingWrites
  channels := h.channels
  control := (h.control.setBitfield bitfield).of_pcs rfl rfl

/-- Counting a piece in both. -/
theorem Views.count (h : Views token s f) :
    Views token { s with pendingWrites := s.pendingWrites + 1 } f.count where
  bitfield := h.bitfield
  pieces := h.pieces
  writes := h.writes
  pendingWrites := by rw [Flow.count, h.pendingWrites]
  channels := h.channels
  control := h.control.of_pcs rfl rfl

/-- A step of `process_piece` is one of the lifecycle. -/
theorem stepPiece_views (hinj : Function.Injective token) (h : Views token s f) {t : PieceTask}
    (hstep : Download.stepPiece s k t = some s') :
    ∃ f', stepPiece f k t = some f' ∧ Views token s' f' := by
  cases hpc : t.pc with
  | start =>
    simp only [Download.stepPiece, hpc] at hstep
    split at hstep
    · rename_i bitfield hadd
      obtain rfl := Option.some.inj hstep
      exact ⟨_, by simp only [stepPiece, hpc, h.bitfield, hadd],
        (h.setBitfield bitfield).setPiece k t .added⟩
    · obtain rfl := Option.some.inj hstep
      refine ⟨f.setPiece k t .finished, ?_, h.setPiece k t .finished⟩
      simp only [stepPiece, hpc, h.bitfield]
  | added =>
    simp only [Download.stepPiece, hpc] at hstep
    obtain rfl := Option.some.inj hstep
    exact ⟨_, by simp only [stepPiece, hpc], h.count.setPiece k t .counted⟩
  | counted =>
    simp only [Download.stepPiece, hpc] at hstep
    obtain ⟨u, hsend, rfl⟩ := Option.map_eq_some_iff.mp hstep
    obtain ⟨f', hf', hview⟩ := sendDownloadedPiece_views hinj h hsend
    exact ⟨_, by simp only [stepPiece, hpc, hf', Option.map_some], hview.setPiece k t .finished⟩
  | finished => simp only [Download.stepPiece, hpc, reduceCtorEq] at hstep

/-! ## Write tasks -/

/-- Moving a write task in both. -/
theorem Views.setWrite (h : Views token s f) (k : Nat) (t : WriteTask) (pc : WritePc) :
    Views token (s.setWrite k t pc) (f.setWrite k (renamed token t) pc) where
  bitfield := h.bitfield
  pieces := h.pieces
  writes := by
    rw [Flow.setWrite, Download.State.setWrite, h.writes, List.map_set]
    rfl
  pendingWrites := h.pendingWrites
  channels := h.channels
  control := h.control.of_pcs rfl rfl

/-- Signalling a worker in both. -/
theorem Views.sendDone (hinj : Function.Injective token) (h : Views token s f) (gen : Nat) :
    Views token (s.sendDone gen) (f.sendDone (token gen)) where
  bitfield := h.bitfield
  pieces := h.pieces
  writes := h.writes
  pendingWrites := h.pendingWrites
  channels other v hv := by
    rw [Download.State.sendDone, List.getElem?_modify] at hv
    obtain ⟨w, hw, rfl⟩ := Option.map_eq_some_iff.mp hv
    obtain ⟨hqueue, hdone⟩ := h.channels other w hw
    by_cases heq : gen = other
    · subst heq
      rw [if_pos rfl]
      exact ⟨hqueue, Function.update_self ..⟩
    · rw [if_neg heq]
      exact ⟨hqueue, (Function.update_of_ne (hinj.ne (Ne.symm heq)) ..).trans hdone⟩
  control := h.control.of_pcs rfl (map_modify_eq _ _ _ _ fun _ => rfl)

/-- A write task upgrades its handle when some task of the lifecycle holds the resources, and only
then if a worker that is leaving has dropped them. -/
theorem Views.upgrade (hinj : Function.Injective token) (h : Views token s f) (gen : Nat) :
    (s.upgradable gen = true → (f.held (token gen) || f.leaving (token gen)) = true) ∧
      (s.upgradable gen = false → f.held (token gen) = false) := by
  have hwrites : (f.writes.any fun t => t.gen == token gen && t.pc.holdsResources) =
      s.writes.any fun t => t.gen == gen && t.pc.holdsResources := by
    rw [h.writes, List.any_map]
    congr 1
    funext t
    have hgen : (token t.gen == token gen) = (t.gen == gen) := by
      rw [Bool.eq_iff_iff, beq_iff_eq, beq_iff_eq, hinj.eq_iff]
    simp only [Function.comp_apply, renamed, hgen]
  constructor
  · intro hup
    rw [Download.State.upgradable, Bool.or_eq_true] at hup
    rcases hup with hworker | hwrite
    · obtain ⟨w, hw, hown⟩ := (Option.any_eq_true _ _).mp hworker
      obtain ⟨v, hv, htoken, hpc⟩ := h.control.owned gen w hw hown
      rcases hpc with hpc | hpc
      · have hheld : f.held (token gen) = true := by
          rw [Flow.held, Bool.or_eq_true, List.any_eq_true]
          exact Or.inl ⟨v, hv, by simp [htoken, hpc]⟩
        rw [hheld, Bool.true_or]
      · have hleaving : f.leaving (token gen) = true := by
          rw [Flow.leaving, List.any_eq_true]
          exact ⟨v, hv, by simp [htoken, hpc]⟩
        rw [hleaving, Bool.or_true]
    · have hheld : f.held (token gen) = true := by
        rw [Flow.held, hwrites, hwrite, Bool.or_true]
      rw [hheld, Bool.true_or]
  · intro hno
    rw [Download.State.upgradable, Bool.or_eq_false_iff] at hno
    rw [Flow.held, hwrites, hno.2, Bool.or_false, List.any_eq_false]
    intro v hv hboth
    rw [Bool.and_eq_true, beq_iff_eq, beq_iff_eq] at hboth
    obtain ⟨w, hw, hown⟩ := h.control.looping v hv hboth.2 gen hboth.1
    rw [hw, Option.any_some, hown] at hno
    exact absurd hno.1 (by simp)

/-- A written piece is only recorded by the download itself. -/
theorem Views.record (h : Views token s f) (written : List (UInt32 × Bytes)) :
    Views token { s with written := written } f where
  bitfield := h.bitfield
  pieces := h.pieces
  writes := h.writes
  pendingWrites := h.pendingWrites
  channels := h.channels
  control := h.control.of_pcs rfl rfl

/-- A step of a write task is one of the lifecycle. -/
theorem stepWrite_views (hinj : Function.Injective token) (h : Views token s f)
    {torrent : Download.Metadata} {t : WriteTask} {ok : Bool}
    (hstep : Download.stepWrite torrent s k t ok = some s') :
    ∃ ok' f', stepWrite torrent.verifyHash torrent.pieceHashes.length f k (renamed token t) ok' =
      some f' ∧ Views token s' f' := by
  have hpc' : (renamed token t).pc = t.pc := rfl
  cases hpc : t.pc with
  | spawned =>
    obtain ⟨hup, hdown⟩ := h.upgrade hinj t.gen
    simp only [Download.stepWrite, hpc] at hstep
    split at hstep
    · rename_i hupgradable
      obtain rfl := Option.some.inj hstep
      refine ⟨true, _, ?_, h.setWrite k t .upgraded⟩
      simp only [stepWrite, hpc', hpc, Bool.true_and]
      exact if_pos (hup hupgradable)
    · rename_i hnot
      obtain rfl := Option.some.inj hstep
      refine ⟨false, _, ?_, h.setWrite k t .dropped⟩
      have hheld : f.held (renamed token t).gen = false := hdown (Bool.not_eq_true _ ▸ hnot)
      simp only [stepWrite, hpc', hpc, hheld, Bool.false_and, Bool.or_false, Bool.false_eq_true,
        if_false]
  | upgraded =>
    simp only [Download.stepWrite, hpc] at hstep
    split at hstep
    · rename_i e he
      obtain rfl := Option.some.inj hstep
      have he' : torrent.verifyHash (renamed token t).index (renamed token t).data = .error e := he
      exact ⟨ok, _, by simp only [stepWrite, hpc', hpc, he'], h.settle.setWrite k t .finished⟩
    · rename_i hv
      obtain rfl := Option.some.inj hstep
      have hv' : torrent.verifyHash (renamed token t).index (renamed token t).data = .ok () := hv
      exact ⟨ok, _, by simp only [stepWrite, hpc', hpc, hv'], h.setWrite k t .verified⟩
  | verified =>
    simp only [Download.stepWrite, hpc] at hstep
    split at hstep
    · obtain rfl := Option.some.inj hstep
      exact ⟨true, _, by simp only [stepWrite, hpc', hpc, if_true],
        (h.settle.record _).setWrite k t .written⟩
    · obtain rfl := Option.some.inj hstep
      exact ⟨false, _, by simp only [stepWrite, hpc', hpc, Bool.false_eq_true, if_false],
        h.settle.setWrite k t .finished⟩
  | written =>
    simp only [Download.stepWrite, hpc] at hstep
    split at hstep
    · rename_i hcount
      obtain rfl := Option.some.inj hstep
      refine ⟨ok, _, ?_, (h.sendDone hinj t.gen).setWrite k t .finished⟩
      simp only [stepWrite, hpc', hpc, h.bitfield, hcount, if_true]
      rfl
    · rename_i hcount
      obtain rfl := Option.some.inj hstep
      exact ⟨ok, _, by simp only [stepWrite, hpc', hpc, h.bitfield, hcount, if_false],
        h.setWrite k t .finished⟩
  | finished | dropped => simp only [Download.stepWrite, hpc, reduceCtorEq] at hstep

/-! ## Receiving -/

/-- Spawning a write task in both. -/
theorem Views.spawnWrite (h : Views token s f) (t : WriteTask) :
    Views token { s with writes := s.writes ++ [t] }
      { f with writes := f.writes ++ [renamed token t] } where
  bitfield := h.bitfield
  pieces := h.pieces
  writes := by rw [h.writes, List.map_append, List.map_singleton]
  pendingWrites := h.pendingWrites
  channels := h.channels
  control := h.control.of_pcs rfl rfl

/-- A worker that receives is a downloader of the lifecycle that does. -/
theorem stepRecv_views (hinj : Function.Injective token) (h : Views token s f) {gen : Nat}
    {w : Download.Worker} (hw : s.workers[gen]? = some w)
    (hstep : Download.stepWorker s gen w .recv = some s') :
    ∃ (i : Nat) (v : Worker) (f' : Flow), f.life.workers[i]? = some v ∧
      stepRecv f v = some f' ∧ Views token s' f' := by
  have hloop : w.pc = .looping := by
    cases hpc : w.pc <;> simp_all [Download.stepWorker]
  obtain ⟨pc, cancelled, waiting, doneSent⟩ := w
  obtain rfl : pc = .looping := hloop
  obtain ⟨i, v, hi, hkind, htoken, hpc⟩ := h.control.receiving gen _ hw rfl
  obtain ⟨hqueue, -⟩ := h.channels gen _ hw
  simp only [Download.stepWorker] at hstep
  split at hstep
  · contradiction
  · rename_i index data queue
    obtain rfl := Option.some.inj hstep
    refine ⟨i, v, _, hi, ?_, (h.setQueue hinj hw queue).spawnWrite ⟨gen, index, data, .spawned⟩⟩
    simp only [stepRecv, if_pos (And.intro hkind hpc), htoken, hqueue]
    rfl

/-! ## Runs -/

/-- A label that is about pieces: one comes in, or a task of theirs moves. -/
def AboutPieces : Download.Label → Prop
  | .receive _ _ | .piece _ | .write _ _ | .worker _ .recv => True
  | _ => False

/-- Every step about pieces is one of the lifecycle. -/
theorem flowStep_views {sha1 : Bytes → Hash20} {torrent : Download.Metadata} {metafile : Metafile}
    (hhashes : metafile.pieceHashes.length = torrent.pieceHashes.length)
    (hinj : Function.Injective token) (h : Views token s f) {l : Download.Label}
    (hl : AboutPieces l) (hstep : Download.step torrent s l = some s') :
    ∃ l' f', flowStep sha1 torrent.verifyHash metafile f l' = some f' ∧ Views token s' f' := by
  cases l with
  | receive index data =>
    simp only [Download.step] at hstep
    split at hstep
    · obtain rfl := Option.some.inj hstep
      refine ⟨.receive index data, _, rfl, ?_⟩
      exact
        { h with
          pieces := by rw [h.pieces]
          control := h.control.of_pcs rfl rfl }
    · contradiction
  | piece k =>
    obtain ⟨t, hk, hpiece⟩ := Option.bind_eq_some_iff.mp hstep
    obtain ⟨f', hf', hview⟩ := stepPiece_views hinj h hpiece
    refine ⟨.piece k, f', ?_, hview⟩
    rw [flowStep, h.pieces, hk, Option.bind_some, hf']
  | write k ok =>
    obtain ⟨t, hk, hwrite⟩ := Option.bind_eq_some_iff.mp hstep
    obtain ⟨ok', f', hf', hview⟩ := stepWrite_views hinj h hwrite
    refine ⟨.write k ok', f', ?_, hview⟩
    rw [flowStep, h.writes, List.getElem?_map, hk, Option.map_some, Option.bind_some, hhashes, hf']
  | worker gen act =>
    obtain ⟨w, hw, hworker⟩ := Option.bind_eq_some_iff.mp hstep
    cases act with
    | recv =>
      obtain ⟨i, v, f', hi, hf', hview⟩ := stepRecv_views hinj h hw hworker
      refine ⟨.recv i, f', ?_, hview⟩
      rw [flowStep, hi, Option.bind_some, hf']
    | tick | leave _ | proceed _ => exact absurd hl id
  | request _ | transition _ _ => exact absurd hl id

/-- What the tasks about pieces do between two other steps of a download, they can do in the
lifecycle, with the same bitfield and the same pieces on their way. -/
theorem exists_flow_of_run {sha1 : Bytes → Hash20} {torrent : Download.Metadata}
    {metafile : Metafile} (hhashes : metafile.pieceHashes.length = torrent.pieceHashes.length)
    (hinj : Function.Injective token) (h : Views token s f) {labels : List Download.Label}
    (hlabels : ∀ l ∈ labels, AboutPieces l)
    (hrun : run (Download.step torrent) s labels = some s') :
    ∃ labels' f', run (flowStep sha1 torrent.verifyHash metafile) f labels' = some f' ∧
      Views token s' f' :=
  exists_run_of_simulation
    (fun _ _ _ _ hview hl hstep => flowStep_views hhashes hinj hview hl hstep) h hlabels hrun

/-- Every download, whatever its state, is carried on by a session in its lifecycle. -/
theorem exists_flow_of_download {sha1 : Bytes → Hash20} {torrent : Download.Metadata}
    {metafile : Metafile} (hhashes : metafile.pieceHashes.length = torrent.pieceHashes.length)
    {labels : List Download.Label} (hlabels : ∀ l ∈ labels, AboutPieces l)
    (hrun : run (Download.step torrent) s labels = some s') :
    ∃ labels' f',
      run (flowStep sha1 torrent.verifyHash metafile) (.ofDownload s) labels' = some f' ∧
        Views id s' f' :=
  exists_flow_of_run hhashes Function.injective_id (views_ofDownload s) hlabels hrun

end Bqti.Session.Lifecycle
