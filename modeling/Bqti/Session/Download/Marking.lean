import Bqti.Session.Download.Completion

/-!
# Marked pieces

A call of `process_piece` marks its piece before the payload is hashed and before it is
written. So in every state of a run the marked pieces are durable exactly when the run marks
no piece but those of the resume file it started from. Where pieces are downloaded, a marked
piece is durable once its payload is no longer underway, if no payload is refused or lost.
-/

namespace Bqti.Session.Download

open Bqti.Core Bqti.Torrent

variable {torrent : Metadata} {resume : Option BitField} {s s' : State}

/-- The resume file that the session found at its start marks the index. -/
def Resumed (resume : Option BitField) (index : Nat) : Prop :=
  ∃ b ∈ resume, b.haveBit index = some true

/-- A call of `process_piece` that starts finds its piece marked already or outside of the
bitfield, or the resume file marks the piece. -/
def MarksOnlyResumed (resume : Option BitField) (s : State) : Label → Prop
  | .piece k => ∀ t ∈ s.pieces[k]?, t.pc = .start → s.bitfield.haveBit t.index.toNat = some false →
      t.index.toNat < s.bitfield.pieceCount → Resumed resume t.index.toNat
  | _ => True

instance (resume : Option BitField) (index : Nat) : Decidable (Resumed resume index) :=
  inferInstanceAs (Decidable (∃ b ∈ resume, b.haveBit index = some true))

instance (resume : Option BitField) (s : State) : (a : Label) →
    Decidable (MarksOnlyResumed resume s a)
  | .piece k => inferInstanceAs (Decidable (∀ t ∈ s.pieces[k]?, t.pc = .start →
      s.bitfield.haveBit t.index.toNat = some false →
      t.index.toNat < s.bitfield.pieceCount → Resumed resume t.index.toNat))
  | .receive _ _ | .request _ | .write _ _ | .transition _ _ | .worker _ _ => .isTrue trivial

/-! ## Accepted payloads -/

/-- A payload that a call of `process_piece` has accepted, wherever it is now. -/
def Taken (s : State) (index : UInt32) : Prop :=
  (∃ t ∈ s.pieces, (t.pc = .added ∨ t.pc = .counted) ∧ t.index = index) ∨
  (∃ q ∈ s.queues, ∃ e ∈ q, e.1 = index) ∨
  (∃ t ∈ s.writes, t.index = index) ∨
  ∃ e ∈ s.written, e.1 = index

/-- A step accepts a payload for an index that is not marked. -/
def Accepts (s : State) (a : Label) (index : UInt32) : Prop :=
  ∃ k t, a = .piece k ∧ s.pieces[k]? = some t ∧ t.pc = .start ∧ t.index = index ∧
    s.bitfield.haveBit index.toNat = some false

/-- Putting a payload into the channel of a worker is all that is new in the channels. -/
private theorem taken_setQueue {gen : Nat} {w : Worker} {queue q : List (UInt32 × Bytes)}
    (hq : q ∈ (s.setWorker gen { w with queue := queue }).queues) : q ∈ s.queues ∨ q = queue := by
  obtain ⟨v, hv, rfl⟩ := List.mem_map.mp hq
  rcases List.mem_or_eq_of_mem_set hv with hv | rfl
  · exact Or.inl (List.mem_map_of_mem hv)
  · exact Or.inr rfl

/-- A call of `process_piece` passes its own payload on. -/
theorem stepPiece_taken {k : Nat} {t : PieceTask} {index : UInt32} (ht : s.pieces[k]? = some t)
    (h : stepPiece s k t = some s') (hi : Taken s' index) :
    Taken s index ∨ Accepts s (.piece k) index := by
  have hown : t.pc = .added ∨ t.pc = .counted → Taken s t.index := fun hpc =>
    Or.inl ⟨t, List.mem_of_getElem? ht, hpc, rfl⟩
  have hset : ∀ u : State, ∀ pc, u.pieces = s.pieces.set k { t with pc := pc } →
      (∃ v ∈ u.pieces, (v.pc = .added ∨ v.pc = .counted) ∧ v.index = index) →
      Taken s index ∨ (pc = .added ∨ pc = .counted) ∧ t.index = index := by
    rintro u pc hu ⟨v, hv, hpc, rfl⟩
    rw [hu] at hv
    rcases List.mem_or_eq_of_mem_set hv with hv | rfl
    · exact Or.inl (Or.inl ⟨v, hv, hpc, rfl⟩)
    · exact Or.inr ⟨hpc, rfl⟩
  rcases stepPiece_cases h with ⟨hpc, bf, hadd, rfl⟩ | ⟨hpc, rfl⟩ | ⟨hpc, rfl⟩ | ⟨hpc, u, hu, rfl⟩
  · rcases hi with hi | hi | hi
    · rcases hset _ _ rfl hi with hold | ⟨_, rfl⟩
      · exact Or.inl hold
      · exact Or.inr ⟨k, t, rfl, ht, hpc, rfl, (addPiece_eq_true hadd).1⟩
    · exact Or.inl (Or.inr (Or.inl hi))
    · exact Or.inl (Or.inr (Or.inr hi))
  · rcases hi with hi | hi | hi
    · rcases hset _ _ rfl hi with hold | ⟨hpc, _⟩
      · exact Or.inl hold
      · simp at hpc
    · exact Or.inl (Or.inr (Or.inl hi))
    · exact Or.inl (Or.inr (Or.inr hi))
  · rcases hi with hi | hi | hi
    · rcases hset _ _ rfl hi with hold | ⟨_, rfl⟩
      · exact Or.inl hold
      · exact Or.inl (hown (Or.inl hpc))
    · exact Or.inl (Or.inr (Or.inl hi))
    · exact Or.inl (Or.inr (Or.inr hi))
  · rcases sendDownloadedPiece_cases hu with ⟨gen, w, hw, rfl⟩ | ⟨_, rfl⟩
    · rcases hi with hi | ⟨q, hq, e, he, hi⟩ | hi
      · rcases hset _ _ rfl hi with hold | ⟨hpc, _⟩
        · exact Or.inl hold
        · simp at hpc
      · rcases taken_setQueue hq with hq | rfl
        · exact Or.inl (Or.inr (Or.inl ⟨q, hq, e, he, hi⟩))
        · rcases List.mem_append.mp he with he | he
          · exact Or.inl (Or.inr (Or.inl
              ⟨w.queue, List.mem_map_of_mem (List.mem_of_getElem? hw), e, he, hi⟩))
          · rw [List.mem_singleton] at he
            rw [he] at hi
            exact Or.inl (hi ▸ hown (Or.inr hpc))
      · exact Or.inl (Or.inr (Or.inr hi))
    · rcases hi with hi | hi | hi
      · rcases hset _ _ rfl hi with hold | ⟨hpc, _⟩
        · exact Or.inl hold
        · simp at hpc
      · exact Or.inl (Or.inr (Or.inl hi))
      · exact Or.inl (Or.inr (Or.inr hi))

/-- A write task writes its own payload. -/
theorem stepWrite_taken {k : Nat} {t : WriteTask} {ok : Bool} {index : UInt32}
    (ht : s.writes[k]? = some t) (h : stepWrite torrent s k t ok = some s')
    (hi : Taken s' index) : Taken s index := by
  have hset : ∀ {u : State} (pc : WritePc), Taken u index → u.pieces = s.pieces →
      u.queues = s.queues → u.writes = s.writes.set k { t with pc := pc } →
      (∀ e ∈ u.written, e ∈ s.written ∨ e.1 = t.index) → Taken s index := by
    rintro u pc (⟨v, hv, hpc⟩ | ⟨q, hmem, he⟩ | ⟨v, hv, rfl⟩ | ⟨e, he, rfl⟩) hp hq hw hlog
    · exact Or.inl ⟨v, hp ▸ hv, hpc⟩
    · exact Or.inr (Or.inl ⟨q, hq ▸ hmem, he⟩)
    · rw [hw] at hv
      rcases List.mem_or_eq_of_mem_set hv with hv | rfl
      · exact Or.inr (Or.inr (Or.inl ⟨v, hv, rfl⟩))
      · exact Or.inr (Or.inr (Or.inl ⟨t, List.mem_of_getElem? ht, rfl⟩))
    · rcases hlog e he with he | he
      · exact Or.inr (Or.inr (Or.inr ⟨e, he, rfl⟩))
      · exact Or.inr (Or.inr (Or.inl ⟨t, List.mem_of_getElem? ht, he.symm⟩))
  rcases stepWrite_cases h with ⟨_, rfl | rfl⟩ | ⟨_, _, rfl⟩ | ⟨_, _, rfl⟩ | ⟨_, rfl⟩ |
    ⟨_, _, rfl⟩ | ⟨_, rfl⟩
  · exact hset .upgraded hi rfl rfl rfl fun _ => Or.inl
  · exact hset .dropped hi rfl rfl rfl fun _ => Or.inl
  · exact hset .verified hi rfl rfl rfl fun _ => Or.inl
  · refine hset .written hi rfl rfl rfl fun e he => ?_
    rcases List.mem_append.mp he with he | he
    · exact Or.inl he
    · rw [List.mem_singleton] at he
      exact Or.inr (congrArg Prod.fst he)
  · exact hset .finished hi rfl rfl rfl fun _ => Or.inl
  · exact hset .finished hi rfl (queues_sendDone s t.gen) rfl fun _ => Or.inl
  · exact hset .finished hi rfl rfl rfl fun _ => Or.inl

/-- Steps that touch no accepted piece take none. -/
theorem SameWork.taken {index : UInt32} (h : SameWork s s') (hi : Taken s' index) :
    Taken s index := by
  obtain ⟨n, hqueues⟩ := h.queues
  rcases hi with ⟨t, ht, hpc⟩ | ⟨q, hq, e, he, hi⟩ | ⟨t, ht, hi⟩ | ⟨e, he, hi⟩
  · exact Or.inl ⟨t, h.pieces ▸ ht, hpc⟩
  · rw [hqueues] at hq
    rcases List.mem_append.mp hq with hq | hq
    · exact Or.inr (Or.inl ⟨q, hq, e, he, hi⟩)
    · rw [List.eq_of_mem_replicate hq] at he
      exact absurd he List.not_mem_nil
  · exact Or.inr (Or.inr (Or.inl ⟨t, h.writes ▸ ht, hi⟩))
  · exact Or.inr (Or.inr (Or.inr ⟨e, h.written ▸ he, hi⟩))

/-- A payload that is in the session after a step was there before, or the step accepts it. -/
theorem step_taken {a : Label} {index : UInt32} (h : step torrent s a = some s')
    (hi : Taken s' index) : Taken s index ∨ Accepts s a index := by
  cases step_cases h with
  | receive =>
    rcases hi with ⟨t, ht, hpc, hi⟩ | hi
    · rcases List.mem_append.mp ht with ht | ht
      · exact Or.inl (Or.inl ⟨t, ht, hpc, hi⟩)
      · rw [List.mem_singleton] at ht
        rw [ht] at hpc
        simp at hpc
    · exact Or.inl (Or.inr hi)
  | request => exact Or.inl hi
  | piece ht hmove => exact stepPiece_taken ht hmove hi
  | write ht hmove => exact Or.inl (stepWrite_taken ht hmove hi)
  | transition _ hmove => exact Or.inl ((stepTransition_sameWork hmove).taken hi)
  | worker hw hmove =>
    rcases stepWorker_cases hw hmove with ⟨first, data, queue, hfirst, rfl⟩ | hwork
    · have hqueue : ∀ e ∈ (first, data) :: queue, e.1 = index → Taken s index := fun e he hi =>
        Or.inr (Or.inl
          ⟨_, List.mem_map_of_mem (List.mem_of_getElem? hw), e, hfirst ▸ he, hi⟩)
      rcases hi with hi | ⟨q, hq, e, he, hi⟩ | ⟨t, ht, hi⟩ | hi
      · exact Or.inl (Or.inl hi)
      · rcases taken_setQueue hq with hq | rfl
        · exact Or.inl (Or.inr (Or.inl ⟨q, hq, e, he, hi⟩))
        · exact Or.inl (hqueue e (List.mem_cons_of_mem _ he) hi)
      · rcases List.mem_append.mp ht with ht | ht
        · exact Or.inl (Or.inr (Or.inr (Or.inl ⟨t, ht, hi⟩)))
        · rw [List.mem_singleton] at ht
          rw [ht] at hi
          exact Or.inl (hqueue _ List.mem_cons_self hi)
      · exact Or.inl (Or.inr (Or.inr (Or.inr hi)))
    · exact Or.inl (hwork.taken hi)

/-! ## The size of the bitfields -/

/-- A session that has not loaded the resume file it has found. -/
structure Unloaded (torrent : Metadata) (size : Nat) (s : State) : Prop where
  workers : s.workers = []
  session : s.bitfield.pieceCount = torrent.pieceHashes.length
  resume : ∃ b, s.resume = some b ∧ b.pieceCount = size
  transitions : ∀ t ∈ s.transitions, t.pc ≠ .loaded ∧
    ∀ resume, t.pc = .opened resume → ∃ b, resume = some b ∧ b.pieceCount = size

/-- All bitfields of the session have one size, or it has not loaded its resume file yet. -/
def Sized (torrent : Metadata) (size : Nat) (s : State) : Prop :=
  (∀ b, s.Holds b → b.pieceCount = size) ∨ Unloaded torrent size s

/-- Every other bitfield of an unloaded session has the size of the resume file. -/
theorem Unloaded.others {size : Nat} {b : BitField} (hs : Unloaded torrent size s)
    (hb : s.resume = some b ∨ (∃ w ∈ s.workers, b ∈ w.pc.snapshots) ∨
      ∃ t ∈ s.transitions, b ∈ t.pc.snapshots) : b.pieceCount = size := by
  rcases hb with hb | ⟨w, hw, _⟩ | ⟨t, ht, hb⟩
  · obtain ⟨r, hr, hsize⟩ := hs.resume
    exact Option.some.inj (hr.symm.trans hb) ▸ hsize
  · exact absurd hw (by simp [hs.workers])
  · cases hpc : t.pc with
    | opened r =>
      obtain ⟨c, rfl, hc⟩ := (hs.transitions t ht).2 r hpc
      simp only [hpc, TransitionPc.snapshots, Option.toList_some, List.mem_singleton] at hb
      exact hb ▸ hc
    | _ => simp [hpc, TransitionPc.snapshots] at hb

/-- A transition that loads nothing leaves the session unloaded. -/
theorem Unloaded.setTransition {size k : Nat} {t : TransitionTask} {pc : TransitionPc}
    (hs : Unloaded torrent size s) (hpc : pc ≠ .loaded)
    (hopened : ∀ resume, pc = .opened resume → ∃ b, resume = some b ∧ b.pieceCount = size) :
    Unloaded torrent size (s.setTransition k t pc) where
  workers := hs.workers
  session := hs.session
  resume := hs.resume
  transitions := forall_mem_set hs.transitions ⟨hpc, hopened⟩

/-- Cancelling a token loads nothing. -/
theorem Unloaded.cancelInner {size : Nat} (hs : Unloaded torrent size s) :
    Unloaded torrent size s.cancelInner := by
  unfold State.cancelInner
  split
  · exact ⟨by simp [State.cancelToken, hs.workers], hs.session, hs.resume, hs.transitions⟩
  · exact hs

/-- Swapping the state loads nothing. -/
theorem Unloaded.swapState {size : Nat} (hs : Unloaded torrent size s) (next : TorrentState) :
    Unloaded torrent size (s.swapState next) := by
  unfold State.swapState
  split
  · exact hs
  · exact ⟨hs.cancelInner.workers, hs.cancelInner.session, hs.cancelInner.resume,
      hs.cancelInner.transitions⟩

/-- An unloaded session stays unloaded until a transition loads the resume file, whose size is
then that of all its bitfields. -/
theorem stepTransition_sized {size k : Nat} {t : TransitionTask} {ok : Bool}
    (ht : s.transitions[k]? = some t) (hs : Unloaded torrent size s)
    (h : stepTransition s k t ok = some s') : Sized torrent size s' := by
  have hmove : ∀ u pc, Unloaded torrent size u → pc ≠ .loaded → (∀ r, pc ≠ .opened r) →
      Sized torrent size (u.setTransition k t pc) := fun u pc hu hpc hopened =>
    Or.inr (hu.setTransition hpc fun r hr => absurd hr (hopened r))
  have hopen : Sized torrent size (openResources s k t ok) := by
    unfold openResources
    split
    · refine Or.inr (hs.setTransition (by simp) fun r hr => ?_)
      obtain ⟨b, hb, hsize⟩ := hs.resume
      exact ⟨b, (TransitionPc.opened.inj hr).symm.trans hb, hsize⟩
    · exact hmove _ _ hs (by simp) (by simp)
  obtain ⟨hloaded, hopened⟩ := hs.transitions t (List.mem_of_getElem? ht)
  cases hpc : t.pc with
  | requested =>
    simp only [stepTransition, hpc] at h
    split at h <;> rw [← Option.some.inj h] <;> exact hmove _ _ hs (by simp) (by simp)
  | checked =>
    simp only [stepTransition, hpc, Option.some.injEq] at h
    rw [← h]
    exact hmove _ _ hs.cancelInner (by simp) (by simp)
  | innerCancelled =>
    simp only [stepTransition, hpc] at h
    split at h
    · rw [← Option.some.inj h]
      exact hopen
    · split at h <;> rw [← Option.some.inj h] <;> exact hmove _ _ hs (by simp) (by simp)
    · split at h <;> rw [← Option.some.inj h] <;> exact hmove _ _ hs (by simp) (by simp)
    · split at h <;> rw [← Option.some.inj h] <;> exact hmove _ _ hs (by simp) (by simp)
  | opening =>
    simp only [stepTransition, hpc, Option.some.injEq] at h
    rw [← h]
    exact hopen
  | opened resume =>
    obtain ⟨b, rfl, hsize⟩ := hopened resume hpc
    simp only [stepTransition, hpc, Option.some.injEq] at h
    subst h
    left
    rintro c (rfl | hc | hc | ⟨u, hu, hc⟩)
    · exact hsize
    · exact hs.others (Or.inl hc)
    · exact hs.others (Or.inr (Or.inl hc))
    · rcases List.mem_or_eq_of_mem_set hu with hu | rfl
      · exact hs.others (Or.inr (Or.inr ⟨u, hu, hc⟩))
      · simp [TransitionPc.snapshots] at hc
  | loaded => exact absurd hpc hloaded
  | swapping next =>
    simp only [stepTransition, hpc, Option.some.injEq] at h
    rw [← h]
    exact hmove _ _ (hs.swapState next) (by simp) (by simp)
  | finished =>
    simp only [stepTransition, hpc] at h
    exact absurd h (by simp)

/-- No step gives the bitfields different sizes. -/
theorem Sized.step {size : Nat} {a : Label} (hs : Sized torrent size s)
    (h : Download.step torrent s a = some s') : Sized torrent size s' := by
  rcases hs with hs | hs
  · refine Or.inl fun b hb => ?_
    obtain ⟨c, hc, hsize⟩ := step_pieceCount h hb
    exact hsize.trans (hs c hc)
  cases step_cases h with
  | receive => exact Or.inr ⟨hs.workers, hs.session, hs.resume, hs.transitions⟩
  | request =>
    exact Or.inr ⟨hs.workers, hs.session, hs.resume,
      forall_mem_concat hs.transitions ⟨by simp, by simp⟩⟩
  | piece _ hmove =>
    rcases stepPiece_cases hmove with ⟨_, bf, hadd, rfl⟩ | ⟨_, rfl⟩ | ⟨_, rfl⟩ | ⟨_, u, hu, rfl⟩
    · have hsize := BitField.set_pieceCount (addPiece_eq_true hadd).2
      exact Or.inr ⟨hs.workers, hsize.trans hs.session, hs.resume, hs.transitions⟩
    · exact Or.inr ⟨hs.workers, hs.session, hs.resume, hs.transitions⟩
    · exact Or.inr ⟨hs.workers, hs.session, hs.resume, hs.transitions⟩
    · rcases sendDownloadedPiece_cases hu with ⟨gen, w, hw, rfl⟩ | ⟨_, rfl⟩
      · exact absurd hw (by simp [hs.workers])
      · exact Or.inr ⟨hs.workers, hs.session, hs.resume, hs.transitions⟩
  | write _ hmove =>
    rcases stepWrite_cases hmove with ⟨_, rfl | rfl⟩ | ⟨_, _, rfl⟩ | ⟨_, _, rfl⟩ | ⟨_, rfl⟩ |
      ⟨_, _, rfl⟩ | ⟨_, rfl⟩
    · exact Or.inr ⟨hs.workers, hs.session, hs.resume, hs.transitions⟩
    · exact Or.inr ⟨hs.workers, hs.session, hs.resume, hs.transitions⟩
    · exact Or.inr ⟨hs.workers, hs.session, hs.resume, hs.transitions⟩
    · exact Or.inr ⟨hs.workers, hs.session, hs.resume, hs.transitions⟩
    · exact Or.inr ⟨hs.workers, hs.session, hs.resume, hs.transitions⟩
    · refine Or.inr ⟨?_, hs.session, hs.resume, hs.transitions⟩
      simp [State.setWrite, State.sendDone, hs.workers]
    · exact Or.inr ⟨hs.workers, hs.session, hs.resume, hs.transitions⟩
  | transition ht hmove => exact stepTransition_sized ht hs hmove
  | worker hw _ => exact absurd hw (by simp [hs.workers])

/-- The session bitfield has the size of the resume file, or the session is unloaded. -/
theorem Sized.session {size : Nat} (hs : Sized torrent size s) :
    s.bitfield.pieceCount = size ∨ s.bitfield.pieceCount = torrent.pieceHashes.length :=
  hs.imp (fun h => h _ (Or.inl rfl)) Unloaded.session

/-- A session bitfield that has the size of the resume file keeps it. -/
theorem Sized.keeps {size : Nat} {a : Label} (hs : Sized torrent size s)
    (hsize : s.bitfield.pieceCount = size) (h : Download.step torrent s a = some s') :
    s'.bitfield.pieceCount = size := by
  obtain ⟨c, hc, he⟩ := step_pieceCount h (Or.inl rfl)
  rw [he]
  rcases hs with hs | hs
  · exact hs c hc
  · rcases hc with rfl | hc
    · exact hsize
    · exact hs.others hc

/-! ## Runs that mark resumed pieces only -/

/-- The size of the bitfields of a session that has loaded its resume file. -/
def loadedSize (torrent : Metadata) (resume : Option BitField) : Nat :=
  (resume.map BitField.pieceCount).getD torrent.pieceHashes.length

/-- What holds of a session that has marked resumed pieces only: every payload that was accepted
is for such a piece, or for one outside of the loaded bitfield, which marks nothing. -/
structure OnlyResumed (torrent : Metadata) (resume : Option BitField) (s : State) : Prop where
  held : ∀ b, s.Holds b → ∀ i, b.haveBit i = some true → Resumed resume i
  sized : Sized torrent (loadedSize torrent resume) s
  calls : ∀ t ∈ s.pieces, t.index.toNat < torrent.pieceHashes.length
  taken : ∀ index, Taken s index → Resumed resume index.toNat ∨
    loadedSize torrent resume ≤ index.toNat ∧ s.bitfield.pieceCount = loadedSize torrent resume

/-- A new session has marked nothing. -/
theorem onlyResumed_new (torrent : Metadata) (resume : Option BitField) :
    OnlyResumed torrent resume (.new torrent resume) := by
  refine ⟨?_, ?_, fun t ht => absurd ht List.not_mem_nil, ?_⟩
  · rintro b (rfl | hb | ⟨w, hw, _⟩ | ⟨t, ht, _⟩) i hi
    · exact absurd hi (BitField.haveBit_empty _ _)
    · exact ⟨b, hb, hi⟩
    · exact absurd hw List.not_mem_nil
    · exact absurd ht List.not_mem_nil
  · cases resume with
    | some b => exact Or.inr ⟨rfl, rfl, ⟨b, rfl, rfl⟩, fun t ht => absurd ht List.not_mem_nil⟩
    | none =>
      left
      rintro b (rfl | hb | ⟨w, hw, _⟩ | ⟨t, ht, _⟩)
      · rfl
      · exact absurd hb (by simp [State.new])
      · exact absurd hw List.not_mem_nil
      · exact absurd ht List.not_mem_nil
  · rintro index (⟨t, ht, _⟩ | ⟨q, hq, _⟩ | ⟨t, ht, _⟩ | ⟨e, he, _⟩)
    · exact absurd ht List.not_mem_nil
    · exact absurd hq List.not_mem_nil
    · exact absurd ht List.not_mem_nil
    · exact absurd he List.not_mem_nil

/-- The calls of `process_piece` are for pieces of the torrent. -/
theorem step_calls {a : Label} (hs : ∀ t ∈ s.pieces, t.index.toNat < torrent.pieceHashes.length)
    (h : step torrent s a = some s') :
    ∀ t ∈ s'.pieces, t.index.toNat < torrent.pieceHashes.length := by
  cases step_cases h with
  | receive known _ => exact forall_mem_concat hs known
  | request => exact hs
  | piece ht hmove =>
    have hown := hs _ (List.mem_of_getElem? ht)
    rcases stepPiece_cases hmove with ⟨_, bf, _, rfl⟩ | ⟨_, rfl⟩ | ⟨_, rfl⟩ | ⟨_, u, hu, rfl⟩
    · exact forall_mem_set hs hown
    · exact forall_mem_set hs hown
    · exact forall_mem_set hs hown
    · rcases sendDownloadedPiece_cases hu with ⟨_, _, _, rfl⟩ | ⟨_, rfl⟩
      · exact forall_mem_set hs hown
      · exact forall_mem_set hs hown
  | write _ hmove =>
    rcases stepWrite_cases hmove with ⟨_, rfl | rfl⟩ | ⟨_, _, rfl⟩ | ⟨_, _, rfl⟩ | ⟨_, rfl⟩ |
      ⟨_, _, rfl⟩ | ⟨_, rfl⟩
    · exact hs
    · exact hs
    · exact hs
    · exact hs
    · exact hs
    · exact hs
    · exact hs
  | transition _ hmove => exact (stepTransition_sameWork hmove).pieces ▸ hs
  | worker hw hmove =>
    rcases stepWorker_cases hw hmove with ⟨_, _, _, _, rfl⟩ | hwork
    · exact hs
    · exact hwork.pieces ▸ hs

/-- An index in range whose bit can be read can be marked. -/
theorem addPiece_of_missing {bf : BitField} {index : UInt32}
    (h : bf.haveBit index.toNat = some false) : ∃ out, addPiece bf index = some (true, out) := by
  have hset : ∃ out, bf.set index.toNat = some out := by
    unfold BitField.haveBit at h
    unfold BitField.set
    split
    · exact ⟨bf, rfl⟩
    · rename_i hlt
      rw [if_neg hlt] at h
      obtain ⟨byte, hbyte, _⟩ := Option.map_eq_some_iff.mp h
      rw [hbyte]
      exact ⟨_, rfl⟩
  obtain ⟨out, hout⟩ := hset
  exact ⟨out, by simp [addPiece, h, hout]⟩

/-- In a session that has marked resumed pieces only, the marked pieces are durable after a step
exactly when the step marks none but those either. -/
theorem OnlyResumed.step {a : Label} (hs : OnlyResumed torrent resume s)
    (h : Download.step torrent s a = some s') :
    ((∀ i, s'.bitfield.haveBit i = some true → Durable torrent resume s' i) ↔
      MarksOnlyResumed resume s a) ∧
    (MarksOnlyResumed resume s a → OnlyResumed torrent resume s') := by
  have hheld : MarksOnlyResumed resume s a → ∀ b, s'.Holds b → ∀ i, b.haveBit i = some true →
      Resumed resume i := by
    intro hc b hb i hi
    rcases step_holds h hb with hold | ⟨_, k, t, rfl, ht, hpc, rfl, hadd⟩
    · exact hs.held b hold i hi
    · obtain ⟨hmissing, hset⟩ := addPiece_eq_true hadd
      rcases (BitField.haveBit_set hset i).mp hi with ⟨rfl, hlt⟩ | hold
      · exact hc t ht hpc hmissing hlt
      · exact hs.held _ (Or.inl rfl) i hold
  refine ⟨⟨fun hp => ?_, fun hc i hi => Or.inl (hheld hc _ (Or.inl rfl) i hi)⟩, fun hc =>
    ⟨hheld hc, hs.sized.step h, step_calls hs.calls h, fun index hi => ?_⟩⟩
  · cases a with
    | piece k =>
      intro t ht hpc hmissing hlt
      obtain ⟨out, hadd⟩ := addPiece_of_missing hmissing
      obtain ⟨hbf, hlog⟩ := Marks.step ⟨k, t, rfl, ht, hpc, rfl, hadd⟩ h
      have hbit : s'.bitfield.haveBit t.index.toNat = some true := by
        rw [hbf, BitField.haveBit_set (addPiece_eq_true hadd).2]
        exact Or.inl ⟨rfl, hlt⟩
      -- What was written for the piece was accepted before, when it was marked as well.
      rcases hp _ hbit with hd | ⟨e, he, hi, _⟩
      · exact hd
      · rw [hlog] at he
        rcases hs.taken e.1 (Or.inr (Or.inr (Or.inr ⟨e, he, rfl⟩))) with hd | ⟨hle, hsize⟩
        · exact hi ▸ hd
        · omega
    | _ => trivial
  · rcases step_taken h hi with hold | ⟨k, t, rfl, ht, hpc, rfl, hmissing⟩
    · exact (hs.taken index hold).imp_right fun hout => ⟨hout.1, hs.sized.keeps hout.2 h⟩
    · by_cases hlt : t.index.toNat < s.bitfield.pieceCount
      · exact Or.inl (hc t ht hpc hmissing hlt)
      · have hcall := hs.calls t (List.mem_of_getElem? ht)
        have hsize := hs.sized.session.resolve_right (by omega)
        exact Or.inr ⟨by omega, hs.sized.keeps hsize h⟩

/-! ## Runs that deliver every payload -/

/-- What holds of a session that has given up no payload. -/
structure Delivered (torrent : Metadata) (resume : Option BitField) (s : State) : Prop where
  checks : ChecksPassed torrent s
  held : ∀ b, s.Holds b → ∀ i, b.haveBit i = some true → Covered torrent resume s i

/-- A step that gives nothing up keeps it so. -/
theorem Delivered.step {a : Label} (hs : Delivered torrent resume s) (hc : Delivers torrent s a)
    (h : Download.step torrent s a = some s') : Delivered torrent resume s' :=
  ⟨hs.checks.step h, fun _ hb _ hi => covered_step hs.checks hs.held hc h hb hi⟩

/-- A new session has given up nothing. -/
theorem delivered_new (torrent : Metadata) (resume : Option BitField) :
    Delivered torrent resume (.new torrent resume) :=
  ⟨fun _ ht => absurd ht List.not_mem_nil,
    fun b hb i hi => Or.inl (sound_new torrent resume b hb i hi)⟩

/-- In every state of a run each marked piece is durable, exactly when every call of
`process_piece` that finds its piece missing is for a piece of the resume file. In a run that
gives up no payload, each marked piece is durable as soon as no payload for it is underway. -/
theorem marked_durable_iff (torrent : Metadata) (resume : Option BitField) (labels : List Label)
    (last : State) (h : run (step torrent) (.new torrent resume) labels = some last) :
    ((∀ pre post s, labels = pre ++ post → run (step torrent) (.new torrent resume) pre = some s →
      ∀ i, s.bitfield.haveBit i = some true → Durable torrent resume s i) ↔
    Along (step torrent) (MarksOnlyResumed resume) (.new torrent resume) labels) ∧
    (Along (step torrent) (Delivers torrent) (.new torrent resume) labels →
      ∀ pre post s, labels = pre ++ post → run (step torrent) (.new torrent resume) pre = some s →
      ∀ i, s.bitfield.haveBit i = some true → ¬ Underway s i → Durable torrent resume s i) := by
  constructor
  · refine forall_reached_iff_along (fun s hs i hi => ?_) (fun s a s' hs hstep => ?_)
      (onlyResumed_new torrent resume) h
    · exact Or.inl (hs.held _ (Or.inl rfl) i hi)
    · obtain ⟨hiff, hnext⟩ := hs.step hstep
      exact ⟨hiff, fun hp => hnext (hiff.mp hp)⟩
  · rintro halong pre post s rfl hs i hi hunder
    have hdelivered : Delivered torrent resume s :=
      run_invariant_along (fun _ _ _ hi hc hstep => hi.step hc hstep)
        (delivered_new torrent resume) halong.of_append hs
    exact (hdelivered.held _ (Or.inl rfl) i hi).resolve_right hunder

/-! ## A torrent of one piece -/

instance (s : State) (i : Nat) : Decidable (Underway s i) :=
  inferInstanceAs (Decidable ((∃ t ∈ s.pieces, (t.pc = .added ∨ t.pc = .counted) ∧
    t.index.toNat = i) ∨ (∃ q ∈ s.queues, ∃ e ∈ q, e.1.toNat = i) ∨
    ∃ t ∈ s.writes, t.pc.weight = 1 ∧ t.index.toNat = i))

/-- The three bytes of the piece. -/
def abcPiece : Bytes := [0x61, 0x62, 0x63]

/-- Three other bytes. -/
def xyzPiece : Bytes := [0x78, 0x79, 0x7a]

/-- The digest of the piece, and the digest of the other bytes for anything else that is sent. -/
def abcSha1 (data : Bytes) : Hash20 :=
  if data = abcPiece then
    #v[0xa9, 0x99, 0x3e, 0x36, 0x47, 0x06, 0x81, 0x6a, 0xba, 0x3e, 0x25, 0x71, 0x78, 0x50, 0xc2,
      0x6c, 0x9c, 0xd0, 0xd8, 0x9d]
  else
    #v[0x66, 0xb2, 0x74, 0x17, 0xd3, 0x7e, 0x02, 0x4c, 0x46, 0x52, 0x6c, 0x2f, 0x6d, 0x35, 0x8a,
      0x75, 0x4f, 0xc5, 0x52, 0xf3]

/-- A valid torrent of one piece, which holds `abc`. -/
def abcTorrent : TorrentV1 where
  info := ⟨.v1 (Vector.replicate 20 0), "abc", ⟨16384⟩⟩
  private_ := false
  pieces := (abcSha1 abcPiece).toList
  mode := .singleFile ⟨3, ["abc"], none⟩

/-- A call of `process_piece`, the worker that takes its payload and the write task, each to
its end. -/
def deliver (data : Bytes) : List Label :=
  [.receive 0 data, .piece 0, .piece 0, .piece 0, .worker 0 .recv, .write 0 true, .write 0 true,
    .write 0 true, .write 0 true]

/-- The piece of a complete resume file is marked before the file is loaded, and all marked pieces
are durable all along. A piece that is downloaded is durable when its write task has ended. -/
theorem marked_durable_iff_downloaded :
    (∃ last, run (step (.ofV1 abcSha1 abcTorrent))
        (.new (.ofV1 abcSha1 abcTorrent) (some ⟨[0x80], 1⟩))
        (.receive 0 abcPiece :: .piece 0 :: startDownload) = some last ∧
      last.bitfield.haveBit 0 = some true ∧
      Durable (.ofV1 abcSha1 abcTorrent) (some ⟨[0x80], 1⟩) last 0) ∧
    ∃ last, run (step (.ofV1 abcSha1 abcTorrent)) (.new (.ofV1 abcSha1 abcTorrent) none)
        (startDownload ++ deliver abcPiece) = some last ∧
      last.bitfield.haveBit 0 = some true ∧
      Durable (.ofV1 abcSha1 abcTorrent) none last 0 := by
  constructor
  · have hrun : (run (step (.ofV1 abcSha1 abcTorrent))
        (.new (.ofV1 abcSha1 abcTorrent) (some ⟨[0x80], 1⟩))
        (.receive 0 abcPiece :: .piece 0 :: startDownload)).any
        (fun last => decide (last.bitfield.haveBit 0 = some true)) = true := by decide +kernel
    obtain ⟨last, hlast, hbit⟩ := exists_of_any hrun
    refine ⟨last, hlast, hbit, ?_⟩
    exact (marked_durable_iff _ _ _ _ hlast).1.mpr (by decide +kernel) _ [] last
      (List.append_nil _).symm hlast 0 hbit
  · have hrun : (run (step (.ofV1 abcSha1 abcTorrent)) (.new (.ofV1 abcSha1 abcTorrent) none)
        (startDownload ++ deliver abcPiece)).any
        (fun last => decide (last.bitfield.haveBit 0 = some true ∧ ¬ Underway last 0)) = true := by
      decide +kernel
    obtain ⟨last, hlast, hbit, hdone⟩ := exists_of_any hrun
    refine ⟨last, hlast, hbit, ?_⟩
    exact (marked_durable_iff _ _ _ _ hlast).2 (by decide +kernel) _ [] last
      (List.append_nil _).symm hlast 0 hbit hdone

/-- A peer sends three other bytes for the only piece. The hash check refuses them and nothing is
written, yet the piece is marked and every task has finished. -/
theorem refused_payload_stays_marked :
    ∃ last, run (step (.ofV1 abcSha1 abcTorrent)) (.new (.ofV1 abcSha1 abcTorrent) none)
        (startDownload ++ [.receive 0 xyzPiece, .piece 0, .piece 0, .piece 0, .worker 0 .recv,
          .write 0 true, .write 0 true]) = some last ∧
      last.bitfield.haveBit 0 = some true ∧
      last.pieces.map PieceTask.pc = [.finished] ∧ last.writes.map WriteTask.pc = [.finished] ∧
      ¬ Durable (.ofV1 abcSha1 abcTorrent) none last 0 := by
  have hrun : (run (step (.ofV1 abcSha1 abcTorrent)) (.new (.ofV1 abcSha1 abcTorrent) none)
      (startDownload ++ [.receive 0 xyzPiece, .piece 0, .piece 0, .piece 0, .worker 0 .recv,
        .write 0 true, .write 0 true])).any
      (fun last => decide (last.bitfield.haveBit 0 = some true ∧
        last.pieces.map PieceTask.pc = [.finished] ∧ last.writes.map WriteTask.pc = [.finished] ∧
        last.written = [])) = true := by
    decide +kernel
  obtain ⟨last, hlast, hbit, hpieces, hwrites, hlog⟩ := exists_of_any hrun
  refine ⟨last, hlast, hbit, hpieces, hwrites, ?_⟩
  rintro (⟨b, hb, _⟩ | ⟨e, hmem, _⟩)
  · exact absurd hb (by simp)
  · rw [hlog] at hmem
    exact absurd hmem List.not_mem_nil

end Bqti.Session.Download
