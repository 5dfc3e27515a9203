import Bqti.Session.Download.Integrity

/-!
# Completion of a download

The counter of pending writes counts exactly the accepted pieces that were neither
written nor given up with their count: pieces on their way into a channel, pieces in a
channel, and pieces in a write task. The worker does not look at that counter; it
leaves its loop when all pieces are marked, and pieces are marked before they are
counted. Completion is sound in the runs in which no counted piece is given up and the
loop is left only while nothing is pending.
-/

namespace Bqti.Session.Download

open Bqti.Core Bqti.Torrent

variable {torrent : Metadata} {s s' : State}

/-! ## The counter of pending writes -/

/-- One for a piece that was counted and not sent yet. -/
def PiecePc.weight : PiecePc → Nat
  | .counted => 1
  | .start | .added | .finished => 0

/-- One for a write task that still owes a count. -/
def WritePc.weight : WritePc → Nat
  | .spawned | .upgraded | .verified | .dropped => 1
  | .written | .finished => 0

/-- The pieces in the channel of each worker. -/
def State.queues (s : State) : List (List (UInt32 × Bytes)) := s.workers.map Worker.queue

/-- The number of counted pieces that were neither written nor given up with their count. -/
def State.outstanding (s : State) : Nat :=
  (s.pieces.map fun t => t.pc.weight).sum + (s.queues.map List.length).sum +
    (s.writes.map fun t => t.pc.weight).sum

/-- Steps that touch no accepted piece add at most empty channels. -/
theorem SameWork.queues (h : SameWork s s') :
    ∃ n, s'.queues = s.queues ++ List.replicate n [] := by
  obtain ⟨n, hmail⟩ := h.mail
  refine ⟨n, ?_⟩
  have hfst := congrArg (List.map Prod.fst) hmail
  simpa [State.queues, Worker.mail, Function.comp_def] using hfst

/-- Steps that touch no accepted piece keep the number of outstanding ones. -/
theorem SameWork.outstanding (h : SameWork s s') : s'.outstanding = s.outstanding := by
  obtain ⟨n, hqueues⟩ := h.queues
  simp only [State.outstanding, h.pieces, h.writes, hqueues, List.map_append, List.map_replicate,
    List.sum_append, List.length_nil, List.sum_replicate_nat, Nat.mul_zero, Nat.add_zero]

/-- A task for a piece that moves on changes what is outstanding by its own weight. -/
theorem outstanding_setPiece {k : Nat} {t : PieceTask} (ht : s.pieces[k]? = some t)
    (pc : PiecePc) :
    (s.setPiece k t pc).outstanding + t.pc.weight = s.outstanding + pc.weight := by
  have hk := sum_map_set (y := { t with pc := pc }) (fun t => t.pc.weight) ht
  simp only [State.outstanding, State.queues, State.setPiece] at hk ⊢
  omega

/-- A write that moves on changes what is outstanding by its own weight. -/
theorem outstanding_setWrite {k : Nat} {t : WriteTask} (ht : s.writes[k]? = some t)
    (pc : WritePc) :
    (s.setWrite k t pc).outstanding + t.pc.weight = s.outstanding + pc.weight := by
  have hk := sum_map_set (y := { t with pc := pc }) (fun t => t.pc.weight) ht
  simp only [State.outstanding, State.queues, State.setWrite] at hk ⊢
  omega

/-- A changed queue changes what is outstanding by its length. -/
theorem outstanding_setQueue {gen : Nat} {w : Worker} (hw : s.workers[gen]? = some w)
    (queue : List (UInt32 × Bytes)) :
    (s.setWorker gen { w with queue := queue }).outstanding + w.queue.length =
      s.outstanding + queue.length := by
  have hk := sum_map_set (y := { w with queue := queue }) (fun w => w.queue.length) hw
  simp only [State.outstanding, State.queues, State.setWorker, List.map_map,
    Function.comp_def] at hk ⊢
  omega

/-- Signalling a worker keeps all channels. -/
theorem queues_sendDone (s : State) (gen : Nat) : (s.sendDone gen).queues = s.queues :=
  map_modify_eq Worker.queue s.workers gen _ fun _ => rfl

/-- Announcing that all is done changes nothing that is outstanding. -/
theorem outstanding_sendDone (s : State) (gen : Nat) :
    (s.sendDone gen).outstanding = s.outstanding := by
  rw [State.outstanding, queues_sendDone]
  rfl

/-- A call of `process_piece` counts its piece, and takes the count back if the channel is
closed. -/
theorem stepPiece_pending {k : Nat} {t : PieceTask} (ht : s.pieces[k]? = some t)
    (h : stepPiece s k t = some s') (hs : s.pendingWrites = s.outstanding) :
    s'.pendingWrites = s'.outstanding := by
  have hset := outstanding_setPiece ht
  rcases stepPiece_cases h with ⟨hpc, bf, _, rfl⟩ | ⟨hpc, rfl⟩ | ⟨hpc, rfl⟩ | ⟨hpc, u, hu, rfl⟩
  · have hk := hset .added
    rw [hpc] at hk
    exact hs.trans hk.symm
  · have hk := hset .finished
    rw [hpc] at hk
    exact hs.trans hk.symm
  · have hk := hset .counted
    rw [hpc] at hk
    exact (congrArg (· + 1) hs).trans hk.symm
  · rcases sendDownloadedPiece_cases hu with ⟨gen, w, hw, rfl⟩ | ⟨_, rfl⟩
    · have hk := outstanding_setPiece
        (s := s.setWorker gen { w with queue := w.queue ++ [(t.index, t.data)] }) ht .finished
      have hq := outstanding_setQueue hw (w.queue ++ [(t.index, t.data)])
      rw [List.length_append, List.length_singleton] at hq
      rw [hpc] at hk
      simp only [PiecePc.weight] at hk
      change s.pendingWrites = _
      omega
    · have hk := hset .finished
      rw [hpc] at hk
      simp only [PiecePc.weight] at hk
      change s.pendingWrites - 1 = (s.setPiece k t .finished).outstanding
      omega

/-- A write task keeps its count until the piece is written or given up. -/
theorem stepWrite_pending {k : Nat} {t : WriteTask} {ok : Bool} (ht : s.writes[k]? = some t)
    (h : stepWrite torrent s k t ok = some s') (hs : s.pendingWrites = s.outstanding) :
    s'.pendingWrites = s'.outstanding := by
  have hkeep : ∀ pc : WritePc, pc.weight = t.pc.weight →
      s.pendingWrites = (s.setWrite k t pc).outstanding := by
    intro pc hpc
    have hk := outstanding_setWrite ht pc
    omega
  have hpay : ∀ pc : WritePc, t.pc.weight = 1 → pc.weight = 0 →
      s.pendingWrites - 1 = (s.setWrite k t pc).outstanding := by
    intro pc hpc hzero
    have hk := outstanding_setWrite ht pc
    omega
  rcases stepWrite_cases h with ⟨hpc, rfl | rfl⟩ | ⟨hpc, _, rfl⟩ | ⟨hpc, _, rfl⟩ | ⟨hpc, rfl⟩ |
    ⟨hpc, _, rfl⟩ | ⟨hpc, rfl⟩
  · exact hkeep .upgraded (by rw [hpc]; rfl)
  · exact hkeep .dropped (by rw [hpc]; rfl)
  · exact hkeep .verified (by rw [hpc]; rfl)
  · exact hpay .written (by rw [hpc]; rfl) rfl
  · rcases hpc with ⟨hpc, _⟩ | ⟨hpc, _⟩
    · exact hpay .finished (by rw [hpc]; rfl) rfl
    · exact hpay .finished (by rw [hpc]; rfl) rfl
  · have hk := outstanding_setWrite (s := s.sendDone t.gen) ht .finished
    rw [hpc, outstanding_sendDone] at hk
    exact hs.trans hk.symm
  · exact hkeep .finished (by rw [hpc]; rfl)

/-- One step changes the counter by exactly what it changes the outstanding pieces. -/
theorem step_pending {a : Label} (h : step torrent s a = some s')
    (hs : s.pendingWrites = s.outstanding) : s'.pendingWrites = s'.outstanding := by
  have hsame : SameWork s s' → s'.pendingWrites = s'.outstanding := fun hw => by
    rw [hw.pending, hw.outstanding, hs]
  cases step_cases h with
  | receive => simpa [State.outstanding, State.queues, PiecePc.weight] using hs
  | request => exact hs
  | piece ht hmove => exact stepPiece_pending ht hmove hs
  | write ht hmove => exact stepWrite_pending ht hmove hs
  | transition _ hmove => exact hsame (stepTransition_sameWork hmove)
  | worker hw hmove =>
    rcases stepWorker_cases hw hmove with ⟨index, data, queue, hq, rfl⟩ | hwork
    · have hk := outstanding_setQueue hw queue
      rw [hq, List.length_cons] at hk
      simp only [State.outstanding, State.queues, State.setWorker, List.map_append,
        List.sum_append, List.map_cons, List.map_nil, List.sum_cons, List.sum_nil,
        WritePc.weight] at hs hk ⊢
      omega
    · exact hsame hwork

/-! ## Pieces that are durable or on their way -/

/-- An accepted piece for the index is on its way to the disk, or was lost with its count. -/
def Underway (s : State) (i : Nat) : Prop :=
  (∃ t ∈ s.pieces, (t.pc = .added ∨ t.pc = .counted) ∧ t.index.toNat = i) ∨
  (∃ q ∈ s.queues, ∃ e ∈ q, e.1.toNat = i) ∨
  ∃ t ∈ s.writes, t.pc.weight = 1 ∧ t.index.toNat = i

/-- The index is durable or an accepted piece for it is underway. -/
def Covered (torrent : Metadata) (resume : Option BitField) (s : State) (i : Nat) : Prop :=
  Durable torrent resume s i ∨ Underway s i

/-- The step gives up no counted piece, and a worker leaves through its done signal only
while nothing is pending and no accepted piece is still uncounted. -/
def Lossless (torrent : Metadata) (s : State) : Label → Prop
  | .piece k => ∀ t ∈ s.pieces[k]?, t.pc = .counted → s.channelOpen = true
  | .write k ok => ∀ t ∈ s.writes[k]?,
      (t.pc = .upgraded → torrent.verifyHash t.index t.data = .ok ()) ∧
      (t.pc = .verified → ok = true)
  | .worker _ (.leave .done) => s.pendingWrites = 0 ∧ ∀ t ∈ s.pieces, t.pc ≠ .added
  | _ => True

/-- The step gives up no counted piece: its payload passes the hash check, its write succeeds
and the channel it goes into is open. -/
def Delivers (torrent : Metadata) (s : State) : Label → Prop
  | .piece k => ∀ t ∈ s.pieces[k]?, t.pc = .counted → s.channelOpen = true
  | .write k ok => ∀ t ∈ s.writes[k]?,
      (t.pc = .upgraded → torrent.verifyHash t.index t.data = .ok ()) ∧
      (t.pc = .verified → ok = true)
  | _ => True

/-- A step without losses gives up no counted piece. -/
theorem Lossless.delivers {a : Label} (h : Lossless torrent s a) : Delivers torrent s a := by
  cases a with
  | piece k => exact h
  | write k ok => exact h
  | _ => trivial

instance (torrent : Metadata) (s : State) : (a : Label) → Decidable (Lossless torrent s a)
  | .piece k => inferInstanceAs
      (Decidable (∀ t ∈ s.pieces[k]?, t.pc = .counted → s.channelOpen = true))
  | .write k ok => inferInstanceAs (Decidable (∀ t ∈ s.writes[k]?,
      (t.pc = .upgraded → torrent.verifyHash t.index t.data = .ok ()) ∧
      (t.pc = .verified → ok = true)))
  | .worker _ (.leave .done) => inferInstanceAs
      (Decidable (s.pendingWrites = 0 ∧ ∀ t ∈ s.pieces, t.pc ≠ .added))
  | .receive _ _ | .request _ | .transition _ _ | .worker _ .tick | .worker _ .recv |
    .worker _ (.leave .cancelled) | .worker _ (.leave .closed) | .worker _ (.proceed _) =>
      .isTrue trivial

instance (torrent : Metadata) (s : State) : (a : Label) → Decidable (Delivers torrent s a)
  | .piece k => inferInstanceAs
      (Decidable (∀ t ∈ s.pieces[k]?, t.pc = .counted → s.channelOpen = true))
  | .write k ok => inferInstanceAs (Decidable (∀ t ∈ s.writes[k]?,
      (t.pc = .upgraded → torrent.verifyHash t.index t.data = .ok ()) ∧
      (t.pc = .verified → ok = true)))
  | .receive _ _ | .request _ | .transition _ _ | .worker _ _ => .isTrue trivial

/-- The write tasks behind the hash check hold data that passed it. -/
def ChecksPassed (torrent : Metadata) (s : State) : Prop :=
  ∀ t ∈ s.writes, t.pc = .verified → torrent.verifyHash t.index t.data = .ok ()

/-- Steps that touch no accepted piece keep the pieces underway. -/
theorem SameWork.underway (h : SameWork s s') {i : Nat} (hu : Underway s i) : Underway s' i := by
  obtain ⟨n, hqueues⟩ := h.queues
  rcases hu with hu | ⟨q, hq, he⟩ | hu
  · exact Or.inl (by rwa [h.pieces])
  · refine Or.inr (Or.inl ⟨q, ?_, he⟩)
    rw [hqueues]
    exact List.mem_append_left _ hq
  · exact Or.inr (Or.inr (by rwa [h.writes]))

/-- Moving a call of `process_piece` keeps every piece underway but its own. -/
theorem underway_setPiece {k i : Nat} {t : PieceTask} (ht : s.pieces[k]? = some t) (pc : PiecePc)
    (hu : Underway s i) :
    Underway (s.setPiece k t pc) i ∨
      ((t.pc = .added ∨ t.pc = .counted) ∧ t.index.toNat = i) := by
  rcases hu with ⟨u, hu, hpc, hi⟩ | hu | hu
  · rcases eq_or_mem_set (y := { t with pc := pc }) ht hu with rfl | hu
    · exact Or.inr ⟨hpc, hi⟩
    · exact Or.inl (Or.inl ⟨u, hu, hpc, hi⟩)
  · exact Or.inl (Or.inr (Or.inl hu))
  · exact Or.inl (Or.inr (Or.inr hu))

/-- Moving a write task keeps every piece underway but its own. -/
theorem underway_setWrite {k i : Nat} {t : WriteTask} (ht : s.writes[k]? = some t) (pc : WritePc)
    (hu : Underway s i) :
    Underway (s.setWrite k t pc) i ∨ (t.pc.weight = 1 ∧ t.index.toNat = i) := by
  rcases hu with hu | hu | ⟨u, hu, hpc, hi⟩
  · exact Or.inl (Or.inl hu)
  · exact Or.inl (Or.inr (Or.inl hu))
  · rcases eq_or_mem_set (y := { t with pc := pc }) ht hu with rfl | hu
    · exact Or.inr ⟨hpc, hi⟩
    · exact Or.inl (Or.inr (Or.inr ⟨u, hu, hpc, hi⟩))

/-- A write task that moves on and still owes its count stays underway. -/
theorem underway_setWrite_of_weight {k i : Nat} {t : WriteTask} (ht : s.writes[k]? = some t)
    {pc : WritePc} (hpc : pc.weight = 1) (hu : Underway s i) : Underway (s.setWrite k t pc) i := by
  rcases underway_setWrite ht pc hu with hu | ⟨_, hi⟩
  · exact hu
  · exact Or.inr (Or.inr ⟨{ t with pc := pc }, mem_set_new ht, hpc, hi⟩)

/-- Replacing the channel of a worker keeps every piece underway but those it held. -/
theorem underway_setQueue {gen i : Nat} {w : Worker} (hw : s.workers[gen]? = some w)
    (queue : List (UInt32 × Bytes)) (hu : Underway s i) :
    Underway (s.setWorker gen { w with queue := queue }) i ∨ ∃ e ∈ w.queue, e.1.toNat = i := by
  rcases hu with hu | ⟨q, hq, he⟩ | hu
  · exact Or.inl (Or.inl hu)
  · obtain ⟨v, hv, rfl⟩ := List.mem_map.mp hq
    rcases eq_or_mem_set (y := { w with queue := queue }) hw hv with rfl | hv
    · exact Or.inr he
    · exact Or.inl (Or.inr (Or.inl ⟨v.queue, List.mem_map_of_mem hv, he⟩))
  · exact Or.inl (Or.inr (Or.inr hu))

/-- A piece in the channel of a worker is underway. -/
theorem underway_of_queue {gen : Nat} {w : Worker} (hw : s.workers[gen]? = some w)
    (queue : List (UInt32 × Bytes)) {e : UInt32 × Bytes} (he : e ∈ queue) :
    Underway (s.setWorker gen { w with queue := queue }) e.1.toNat :=
  Or.inr (Or.inl ⟨queue, List.mem_map.mpr ⟨_, mem_set_new hw, rfl⟩, e, he, rfl⟩)

/-- A step of `process_piece` that finds its channel open keeps every piece underway. -/
theorem stepPiece_underway {k i : Nat} {t : PieceTask} (ht : s.pieces[k]? = some t)
    (hc : Delivers torrent s (.piece k)) (h : stepPiece s k t = some s') (hu : Underway s i) :
    Underway s' i := by
  rcases stepPiece_cases h with ⟨hpc, bf, _, rfl⟩ | ⟨hpc, rfl⟩ | ⟨hpc, rfl⟩ | ⟨hpc, u, hsend, rfl⟩
  · rcases underway_setPiece ht .added hu with hu | hu
    · exact hu
    · simp [hpc] at hu
  · rcases underway_setPiece ht .finished hu with hu | hu
    · exact hu
    · simp [hpc] at hu
  · rcases underway_setPiece ht .counted hu with hu | ⟨_, hi⟩
    · exact hu
    · exact Or.inl ⟨{ t with pc := .counted }, mem_set_new ht, Or.inr rfl, hi⟩
  · have hopen : s.channelOpen = true := hc t ht hpc
    rcases sendDownloadedPiece_cases hsend with ⟨g, v, hv, rfl⟩ | ⟨hclosed, rfl⟩
    · have hv' : (s.setPiece k t .finished).workers[g]? = some v := hv
      have hnew := fun {e} he => underway_of_queue hv' (v.queue ++ [(t.index, t.data)]) (e := e) he
      rcases underway_setPiece ht .finished hu with hu | ⟨_, hi⟩
      · rcases underway_setQueue hv' (v.queue ++ [(t.index, t.data)]) hu with hu | ⟨e, he, hi⟩
        · exact hu
        · exact hi ▸ hnew (List.mem_append_left _ he)
      · exact hi ▸ hnew (List.mem_append_right _ (List.mem_singleton_self _))
    · exact absurd (hopen.symm.trans hclosed) (by simp)

/-- A step of a write task that does not fail keeps every index covered. -/
theorem stepWrite_covered {resume : Option BitField} {k i : Nat} {t : WriteTask} {ok : Bool}
    (ht : s.writes[k]? = some t) (hchecks : ChecksPassed torrent s)
    (hc : Delivers torrent s (.write k ok)) (h : stepWrite torrent s k t ok = some s')
    (hu : Underway s i) : Covered torrent resume s' i := by
  obtain ⟨hverify, hwrite⟩ := hc t ht
  have hkeep : ∀ pc : WritePc, t.pc.weight = 0 → Underway (s.setWrite k t pc) i := by
    intro pc hz
    rcases underway_setWrite ht pc hu with hu | ⟨hone, _⟩
    · exact hu
    · omega
  rcases stepWrite_cases h with ⟨hpc, rfl | rfl⟩ | ⟨hpc, _, rfl⟩ | ⟨hpc, _, rfl⟩ |
    ⟨⟨hpc, hbad⟩ | ⟨hpc, hbad⟩, rfl⟩ | ⟨hpc, _, rfl⟩ | ⟨hpc, rfl⟩
  · exact Or.inr (underway_setWrite_of_weight ht rfl hu)
  · exact Or.inr (underway_setWrite_of_weight ht rfl hu)
  · exact Or.inr (underway_setWrite_of_weight ht rfl hu)
  · rcases underway_setWrite ht .written hu with hu | ⟨_, hi⟩
    · exact Or.inr hu
    · refine Or.inl (Or.inr ⟨(t.index, t.data), ?_, hi, ?_⟩)
      · exact List.mem_append_right _ (List.mem_singleton_self _)
      · exact hchecks t (List.mem_of_getElem? ht) hpc
  · exact absurd (hverify hpc) hbad
  · exact absurd (hwrite hpc) (by simp [hbad])
  · rcases hkeep .finished (by rw [hpc]; rfl) with hu | hu | hu
    · exact Or.inr (Or.inl hu)
    · exact Or.inr (Or.inr (Or.inl ((queues_sendDone s t.gen).symm ▸ hu)))
    · exact Or.inr (Or.inr (Or.inr hu))
  · exact Or.inr (hkeep .finished (by rw [hpc]; rfl))

/-- A step that gives nothing up keeps every index covered. -/
theorem Covered.step {resume : Option BitField} {a : Label} {i : Nat}
    (hchecks : ChecksPassed torrent s) (hc : Delivers torrent s a)
    (h : step torrent s a = some s') (hi : Covered torrent resume s i) :
    Covered torrent resume s' i := by
  rcases hi with hd | hu
  · exact Or.inl (hd.step h)
  cases step_cases h with
  | receive =>
    rcases hu with ⟨t, ht, hpc⟩ | hu | hu
    · exact Or.inr (Or.inl ⟨t, List.mem_append_left _ ht, hpc⟩)
    · exact Or.inr (Or.inr (Or.inl hu))
    · exact Or.inr (Or.inr (Or.inr hu))
  | request => exact Or.inr hu
  | piece ht hmove => exact Or.inr (stepPiece_underway ht hc hmove hu)
  | write ht hmove => exact stepWrite_covered ht hchecks hc hmove hu
  | transition _ hmove => exact Or.inr ((stepTransition_sameWork hmove).underway hu)
  | worker hw hmove =>
    rcases stepWorker_cases hw hmove with ⟨index, data, queue, hq, rfl⟩ | hwork
    · rcases underway_setQueue hw queue hu with hu | ⟨e, he, hi⟩
      · rcases hu with hu | hu | ⟨t, ht, hpc⟩
        · exact Or.inr (Or.inl hu)
        · exact Or.inr (Or.inr (Or.inl hu))
        · exact Or.inr (Or.inr (Or.inr ⟨t, List.mem_append_left _ ht, hpc⟩))
      · rw [hq, List.mem_cons] at he
        rcases he with rfl | he
        · exact Or.inr (Or.inr (Or.inr
            ⟨_, List.mem_append_right _ (List.mem_singleton_self _), rfl, hi⟩))
        · have hu := underway_of_queue hw queue he
          rw [hi] at hu
          rcases hu with hu | hu | ⟨t, ht, hpc⟩
          · exact Or.inr (Or.inl hu)
          · exact Or.inr (Or.inr (Or.inl hu))
          · exact Or.inr (Or.inr (Or.inr ⟨t, List.mem_append_left _ ht, hpc⟩))
    · exact Or.inr (hwork.underway hu)

/-- Bitfields that mark covered pieces only do so after a step that gives nothing up. -/
theorem covered_step {resume : Option BitField} {a : Label} {b : BitField} {i : Nat}
    (hchecks : ChecksPassed torrent s)
    (hheld : ∀ b, s.Holds b → ∀ i, b.haveBit i = some true → Covered torrent resume s i)
    (hc : Delivers torrent s a) (h : step torrent s a = some s') (hb : s'.Holds b)
    (hi : b.haveBit i = some true) : Covered torrent resume s' i := by
  rcases step_holds h hb with hold | ⟨index, k, t, rfl, ht, hpc, rfl, hadd⟩
  · exact (hheld b hold i hi).step hchecks hc h
  · rcases (BitField.haveBit_set (addPiece_eq_true hadd).2 i).mp hi with ⟨rfl, _⟩ | hold
    · simp only [Download.step, ht, Option.bind_some, stepPiece, hpc, hadd,
        Option.some.injEq] at h
      rw [← h]
      exact Or.inr (Or.inl ⟨{ t with pc := .added }, mem_set_new ht, Or.inl rfl, rfl⟩)
    · exact (hheld _ (Or.inl rfl) i hold).step hchecks hc h

/-! ## Runs that lose nothing -/

/-- The invariant of a run without losses: the counter is exact, the hash checks passed,
every held bitfield has the right size and marks covered pieces, and a done signal means
that all pieces are covered. -/
structure Accounted (torrent : Metadata) (resume : Option BitField) (s : State) : Prop where
  pending : s.pendingWrites = s.outstanding
  checks : ChecksPassed torrent s
  held : ∀ b, s.Holds b → b.pieceCount = torrent.pieceHashes.length ∧
    ∀ i, b.haveBit i = some true → Covered torrent resume s i
  done : ∀ m ∈ s.workers.map Worker.mail, m.2 = true →
    ∀ i, i < torrent.pieceHashes.length → Covered torrent resume s i

/-- The hash checks of all write tasks stay passed. -/
theorem ChecksPassed.step {a : Label} (hs : ChecksPassed torrent s)
    (h : step torrent s a = some s') : ChecksPassed torrent s' := by
  intro u hu hv
  cases step_cases h with
  | receive => exact hs u hu hv
  | request => exact hs u hu hv
  | piece _ hmove =>
    rcases stepPiece_cases hmove with ⟨_, bf, _, rfl⟩ | ⟨_, rfl⟩ | ⟨_, rfl⟩ | ⟨_, v, hv', rfl⟩
    · exact hs u hu hv
    · exact hs u hu hv
    · exact hs u hu hv
    · rcases sendDownloadedPiece_cases hv' with ⟨_, _, _, rfl⟩ | ⟨_, rfl⟩
      · exact hs u hu hv
      · exact hs u hu hv
  | @write k ok t _ ht hmove =>
    have hset : ∀ pc : WritePc, u ∈ s.writes.set k { t with pc := pc } →
        (pc = .verified → torrent.verifyHash t.index t.data = .ok ()) →
        torrent.verifyHash u.index u.data = .ok () := by
      intro pc hu hpc
      rcases List.mem_or_eq_of_mem_set hu with hu | rfl
      · exact hs u hu hv
      · exact hpc hv
    rcases stepWrite_cases hmove with ⟨_, rfl | rfl⟩ | ⟨_, hok, rfl⟩ | ⟨_, _, rfl⟩ | ⟨_, rfl⟩ |
      ⟨_, _, rfl⟩ | ⟨_, rfl⟩
    · exact hset .upgraded hu (by simp)
    · exact hset .dropped hu (by simp)
    · exact hset .verified hu fun _ => hok
    · exact hset .written hu (by simp)
    · exact hset .finished hu (by simp)
    · exact hset .finished hu (by simp)
    · exact hset .finished hu (by simp)
  | transition _ hmove =>
    rw [(stepTransition_sameWork hmove).writes] at hu
    exact hs u hu hv
  | worker hw hmove =>
    rcases stepWorker_cases hw hmove with ⟨index, data, queue, _, rfl⟩ | hwork
    · rcases List.mem_append.mp hu with hu | hu
      · exact hs u hu hv
      · rw [List.mem_singleton] at hu
        rw [hu] at hv
        exact absurd hv (by simp)
    · rw [hwork.writes] at hu
      exact hs u hu hv

/-- A done signal after a step was sent before, or the step found all pieces marked. -/
theorem step_done {a : Label} (h : step torrent s a = some s')
    {m : List (UInt32 × Bytes) × Bool} (hm : m ∈ s'.workers.map Worker.mail) (hd : m.2 = true) :
    (∃ m ∈ s.workers.map Worker.mail, m.2 = true) ∨
      s.bitfield.count = some torrent.pieceHashes.length := by
  have hsame : SameWork s s' → ∃ m ∈ s.workers.map Worker.mail, m.2 = true := by
    intro hw
    obtain ⟨n, hmail⟩ := hw.mail
    rw [hmail] at hm
    rcases List.mem_append.mp hm with hm | hm
    · exact ⟨m, hm, hd⟩
    · rw [List.eq_of_mem_replicate hm] at hd
      exact absurd hd (by simp)
  have hqueue : ∀ {gen : Nat} {w : Worker} {queue : List (UInt32 × Bytes)},
      s.workers[gen]? = some w →
      s'.workers = s.workers.set gen { w with queue := queue } →
      ∃ m ∈ s.workers.map Worker.mail, m.2 = true := by
    intro gen w queue hw he
    rw [he] at hm
    obtain ⟨v, hv, rfl⟩ := List.mem_map.mp hm
    rcases List.mem_or_eq_of_mem_set hv with hv | rfl
    · exact ⟨v.mail, List.mem_map_of_mem hv, hd⟩
    · exact ⟨w.mail, List.mem_map_of_mem (List.mem_of_getElem? hw), hd⟩
  cases step_cases h with
  | receive => exact Or.inl ⟨m, hm, hd⟩
  | request => exact Or.inl ⟨m, hm, hd⟩
  | piece _ hmove =>
    rcases stepPiece_cases hmove with ⟨_, bf, _, rfl⟩ | ⟨_, rfl⟩ | ⟨_, rfl⟩ | ⟨_, v, hv, rfl⟩
    · exact Or.inl ⟨m, hm, hd⟩
    · exact Or.inl ⟨m, hm, hd⟩
    · exact Or.inl ⟨m, hm, hd⟩
    · rcases sendDownloadedPiece_cases hv with ⟨gen, w, hw, rfl⟩ | ⟨_, rfl⟩
      · exact Or.inl (hqueue hw rfl)
      · exact Or.inl ⟨m, hm, hd⟩
  | write _ hmove =>
    rcases stepWrite_cases hmove with ⟨_, rfl | rfl⟩ | ⟨_, _, rfl⟩ | ⟨_, _, rfl⟩ | ⟨_, rfl⟩ |
      ⟨_, hcount, rfl⟩ | ⟨_, rfl⟩
    · exact Or.inl ⟨m, hm, hd⟩
    · exact Or.inl ⟨m, hm, hd⟩
    · exact Or.inl ⟨m, hm, hd⟩
    · exact Or.inl ⟨m, hm, hd⟩
    · exact Or.inl ⟨m, hm, hd⟩
    · exact Or.inr hcount
    · exact Or.inl ⟨m, hm, hd⟩
  | transition _ hmove => exact Or.inl (hsame (stepTransition_sameWork hmove))
  | worker hw hmove =>
    rcases stepWorker_cases hw hmove with ⟨index, data, queue, hq, rfl⟩ | hwork
    · exact Or.inl (hqueue hw rfl)
    · exact Or.inl (hsame hwork)

/-- A lossless step keeps the account. -/
theorem Accounted.step {resume : Option BitField} {a : Label} (hs : Accounted torrent resume s)
    (hc : Lossless torrent s a) (h : step torrent s a = some s') :
    Accounted torrent resume s' := by
  have hkeep : ∀ i, Covered torrent resume s i → Covered torrent resume s' i := fun i hi =>
    hi.step hs.checks hc.delivers h
  refine ⟨step_pending h hs.pending, hs.checks.step h, fun b hb => ⟨?_, fun i hi => ?_⟩,
    fun m hm hd i hi => ?_⟩
  · obtain ⟨c, hc, hsize⟩ := step_pieceCount h hb
    exact hsize.trans (hs.held c hc).1
  · exact covered_step hs.checks (fun c hc => (hs.held c hc).2) hc.delivers h hb hi
  · rcases step_done h hm hd with ⟨m', hm', hd'⟩ | hcount
    · exact hkeep i (hs.done m' hm' hd' i hi)
    · obtain ⟨hsize, hbits⟩ := hs.held _ (Or.inl rfl)
      rw [← hsize] at hcount hi
      exact hkeep i (hbits i (BitField.haveBit_of_count hcount hi))

/-- A new session over a resume file of the right size has a correct account. -/
theorem accounted_new {resume : Option BitField}
    (hresume : ∀ b, resume = some b → b.pieceCount = torrent.pieceHashes.length) :
    Accounted torrent resume (.new torrent resume) := by
  refine ⟨rfl, fun t ht => absurd ht List.not_mem_nil, ?_, fun m hm => absurd hm List.not_mem_nil⟩
  intro b hb
  refine ⟨?_, fun i hi => Or.inl (sound_new torrent resume b hb i hi)⟩
  rcases hb with rfl | hb | ⟨w, hw, _⟩ | ⟨t, ht, _⟩
  · rfl
  · exact hresume b hb
  · exact absurd hw List.not_mem_nil
  · exact absurd ht List.not_mem_nil

/-- With nothing pending, the account has no piece underway except uncounted ones. -/
theorem Accounted.settled {resume : Option BitField} (hs : Accounted torrent resume s)
    (hzero : s.pendingWrites = 0) :
    (∀ t ∈ s.pieces, t.pc ≠ .counted) ∧ (∀ w ∈ s.workers, w.queue = []) ∧
      ∀ t ∈ s.writes, t.pc = .written ∨ t.pc = .finished := by
  have hout := hs.pending
  rw [hzero, State.outstanding] at hout
  refine ⟨fun t ht hpc => ?_, fun w hw => ?_, fun t ht => ?_⟩
  · have hz := eq_zero_of_sum_map_eq_zero (f := fun t : PieceTask => t.pc.weight) (by omega) ht
    simp [hpc, PiecePc.weight] at hz
  · have hz := eq_zero_of_sum_map_eq_zero (f := List.length) (l := s.queues) (by omega)
      (List.mem_map_of_mem hw)
    exact List.eq_nil_of_length_eq_zero hz
  · have hz := eq_zero_of_sum_map_eq_zero (f := fun t : WriteTask => t.pc.weight) (by omega) ht
    cases hpc : t.pc <;> simp [hpc, WritePc.weight] at hz ⊢

/-- In a run without losses, a worker that leaves its loop through the done signal leaves
every piece durable, every channel empty and no write task with a piece to write. -/
theorem done_exit_complete (torrent : Metadata) (resume : Option BitField)
    (labels : List Label) (gen : Nat) (s : State)
    (hresume : ∀ b, resume = some b → b.pieceCount = torrent.pieceHashes.length)
    (hsteps : Along (step torrent) (Lossless torrent) (.new torrent resume)
      (labels ++ [.worker gen (.leave .done)]))
    (hrun : run (step torrent) (.new torrent resume) (labels ++ [.worker gen (.leave .done)]) =
      some s) :
    (∀ i, i < torrent.pieceHashes.length → Durable torrent resume s i) ∧
    (∀ w ∈ s.workers, w.queue = []) ∧
    ∀ t ∈ s.writes, t.pc = .written ∨ t.pc = .finished := by
  obtain ⟨u, hu, hlast⟩ := run_append_eq_some.mp hrun
  obtain ⟨s', hstep, hs'⟩ := run_cons_eq_some.mp hlast
  have he : s' = s := Option.some.inj hs'
  subst he
  have hacc : Accounted torrent resume u :=
    run_invariant_along (fun _ _ _ hi hc h => hi.step hc h) (accounted_new hresume)
      hsteps.of_append hu
  obtain ⟨hzero, huncounted⟩ := hsteps.at_step hu
  obtain ⟨hcounted, hqueues, hwrites⟩ := hacc.settled hzero
  have hstep' := hstep
  simp only [step, Option.bind_eq_some_iff] at hstep'
  obtain ⟨w, hw, hleave⟩ := hstep'
  obtain ⟨hdone, hmoved⟩ := stepWorker_leave hleave
  have hcovered := hacc.done w.mail (List.mem_map_of_mem (List.mem_of_getElem? hw)) hdone
  refine ⟨fun i hi => ?_, ?_, ?_⟩
  · rcases hcovered i hi with hd | ⟨t, ht, hpc | hpc, _⟩ | ⟨q, hq, e, he, _⟩ | ⟨t, ht, hpc, _⟩
    · exact hd.step hstep
    · exact absurd hpc (huncounted t ht)
    · exact absurd hpc (hcounted t ht)
    · obtain ⟨v, hv, rfl⟩ := List.mem_map.mp hq
      rw [hqueues v hv] at he
      exact absurd he List.not_mem_nil
    · rcases hwrites t ht with h | h <;> simp [h, WritePc.weight] at hpc
  · intro v hv
    rw [hmoved] at hv
    rcases List.mem_or_eq_of_mem_set hv with hv | rfl
    · exact hqueues v hv
    · exact hqueues w (List.mem_of_getElem? hw)
  · rw [hmoved]
    exact hwrites

/-! ## Two pieces -/

/-- The digest of 16384 zero bytes. -/
def zeroSha1 (_ : Bytes) : Hash20 :=
  #v[0x89, 0x72, 0x56, 0xb6, 0x70, 0x9e, 0x1a, 0x4d, 0xa9, 0xda, 0xba, 0x92, 0xb6, 0xbd, 0xe3,
    0x9c, 0xcf, 0xcc, 0xd8, 0xc1]

/-- A piece of 16384 zero bytes. -/
def zeroPiece : Bytes := List.replicate 16384 0

/-- A valid torrent of two pieces of zero bytes. -/
def zeroTorrent : TorrentV1 where
  info := ⟨.v1 (Vector.replicate 20 0), "zero", ⟨16384⟩⟩
  private_ := false
  pieces := (zeroSha1 zeroPiece).toList ++ (zeroSha1 zeroPiece).toList
  mode := .singleFile ⟨32768, ["zero"], none⟩

/-- A new session becomes a downloading session with a running worker. -/
def startDownload : List Label :=
  [.request .download, .transition 0 true, .transition 0 true, .transition 0 true,
    .transition 0 true, .transition 0 true, .worker 0 (.proceed true)]

/-- Both pieces are received and written one after the other, and the second write sends
the done signal. -/
def twoWrites : List Label :=
  startDownload ++
    [.receive 0 zeroPiece, .piece 0, .piece 0, .piece 0, .worker 0 .recv,
      .write 0 true, .write 0 true, .write 0 true, .write 0 true,
      .receive 1 zeroPiece, .piece 1, .piece 1, .piece 1, .worker 0 .recv,
      .write 1 true, .write 1 true, .write 1 true, .write 1 true]

/-- A download whose writes have both ended when the worker leaves is complete. -/
theorem done_exit_complete_two_writes :
    ∃ s, run (step (.ofV1 zeroSha1 zeroTorrent)) (.new (.ofV1 zeroSha1 zeroTorrent) none)
        (twoWrites ++ [.worker 0 (.leave .done)]) = some s ∧
      Durable (.ofV1 zeroSha1 zeroTorrent) none s 0 ∧
      Durable (.ofV1 zeroSha1 zeroTorrent) none s 1 := by
  have hrun : (run (step (.ofV1 zeroSha1 zeroTorrent)) (.new (.ofV1 zeroSha1 zeroTorrent) none)
      (twoWrites ++ [.worker 0 (.leave .done)])).isSome = true := by decide +kernel
  obtain ⟨s, hs⟩ := Option.isSome_iff_exists.mp hrun
  have hcomplete := done_exit_complete (.ofV1 zeroSha1 zeroTorrent) none twoWrites 0 s (by simp)
    (by decide +kernel) hs
  exact ⟨s, hs, hcomplete.1 0 (by decide +kernel), hcomplete.1 1 (by decide +kernel)⟩

/-- The second piece is marked and waits in the channel when the first write checks the
number of marked pieces: the worker leaves through its done signal with one piece written
and one lost in the channel. -/
theorem done_exit_loses_queued_piece :
    ∃ s, run (step (.ofV1 zeroSha1 zeroTorrent)) (.new (.ofV1 zeroSha1 zeroTorrent) none)
        (startDownload ++ [.receive 0 zeroPiece, .piece 0, .piece 0, .piece 0, .worker 0 .recv,
          .write 0 true, .write 0 true, .receive 1 zeroPiece, .piece 1, .piece 1, .piece 1,
          .write 0 true, .write 0 true, .worker 0 (.leave .done)]) = some s ∧
      s.queues.map List.length = [1] ∧
      ¬ Durable (.ofV1 zeroSha1 zeroTorrent) none s 1 := by
  have hrun : (run (step (.ofV1 zeroSha1 zeroTorrent)) (.new (.ofV1 zeroSha1 zeroTorrent) none)
      (startDownload ++ [.receive 0 zeroPiece, .piece 0, .piece 0, .piece 0, .worker 0 .recv,
        .write 0 true, .write 0 true, .receive 1 zeroPiece, .piece 1, .piece 1, .piece 1,
        .write 0 true, .write 0 true, .worker 0 (.leave .done)])).map
      (fun s => (s.queues.map List.length, s.written.map fun e => e.1)) = some ([1], [0]) := by
    decide +kernel
  obtain ⟨s, hs, he⟩ := Option.map_eq_some_iff.mp hrun
  injection he with hqueues hlog
  refine ⟨s, hs, hqueues, ?_⟩
  rintro (⟨b, hb, _⟩ | ⟨e, hmem, hi, _⟩)
  · exact absurd hb (by simp)
  · have hindex : e.1 ∈ s.written.map fun e => e.1 := List.mem_map_of_mem hmem
    rw [hlog, List.mem_singleton] at hindex
    rw [hindex] at hi
    exact absurd hi (by decide)

end Bqti.Session.Download
