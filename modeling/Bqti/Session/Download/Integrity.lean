import Bqti.Session.Download.Step

/-!
# Integrity of the session bitfield

Every bitfield that a session holds, in memory, in the resume file or on its way
between them, comes from the session bitfield or from the resume file, and the only step
that marks a new piece is the one that accepts a payload. What is durable stays so.
-/

namespace Bqti.Session.Download

open Bqti.Core Bqti.Torrent

variable {torrent : Metadata} {s s' : State} {b : BitField}

/-! ## Where a held bitfield comes from -/

/-- Changing a worker without moving it changes no held bitfield. -/
private theorem holds_modify {gen : Nat} (f : Worker → Worker) (hf : ∀ w, (f w).pc = w.pc)
    (h : ({ s with workers := s.workers.modify gen f } : State).Holds b) : s.Holds b := by
  rcases h with h | h | ⟨w, hw, hb⟩ | h
  · exact Or.inl h
  · exact Or.inr (Or.inl h)
  · rcases mem_modify hw with hw | ⟨w₀, hw₀, rfl⟩
    · exact Or.inr (Or.inr (Or.inl ⟨w, hw, hb⟩))
    · rw [hf] at hb
      exact Or.inr (Or.inr (Or.inl ⟨w₀, List.mem_of_getElem? hw₀, hb⟩))
  · exact Or.inr (Or.inr (Or.inr h))

/-- Cancelling the inner token changes no held bitfield. -/
theorem holds_cancelInner (h : s.cancelInner.Holds b) : s.Holds b := by
  unfold State.cancelInner at h
  split at h
  · exact holds_modify (fun w => { w with cancelled := true }) (fun _ => rfl) h
  · exact h

/-- Swapping the state changes no held bitfield. -/
theorem holds_swapState {t : TorrentState} (h : (s.swapState t).Holds b) : s.Holds b := by
  unfold State.swapState at h
  split at h
  · exact h
  · exact holds_cancelInner h

/-- Moving a transition adds at most the bitfields of its new point. -/
theorem holds_setTransition {k : Nat} {t : TransitionTask} {p : TransitionPc}
    (h : (s.setTransition k t p).Holds b) : s.Holds b ∨ b ∈ p.snapshots := by
  rcases h with h | h | h | ⟨u, hu, hb⟩
  · exact Or.inl (Or.inl h)
  · exact Or.inl (Or.inr (Or.inl h))
  · exact Or.inl (Or.inr (Or.inr (Or.inl h)))
  · rcases List.mem_or_eq_of_mem_set hu with hu | rfl
    · exact Or.inl (Or.inr (Or.inr (Or.inr ⟨u, hu, hb⟩)))
    · exact Or.inr hb

/-- Replacing a worker adds at most the bitfields of its new point. -/
theorem holds_setWorker {gen : Nat} {w : Worker} (h : (s.setWorker gen w).Holds b) :
    s.Holds b ∨ b ∈ w.pc.snapshots := by
  rcases h with h | h | ⟨u, hu, hb⟩ | h
  · exact Or.inl (Or.inl h)
  · exact Or.inl (Or.inr (Or.inl h))
  · rcases List.mem_or_eq_of_mem_set hu with hu | rfl
    · exact Or.inl (Or.inr (Or.inr (Or.inl ⟨u, hu, hb⟩)))
    · exact Or.inr hb
  · exact Or.inl (Or.inr (Or.inr (Or.inr h)))

/-- Writing a held snapshot to the resume file changes no held bitfield. -/
theorem holds_persistResume {c : BitField} {ok : Bool} (hc : s.Holds c)
    (h : (persistResume s c ok).Holds b) : s.Holds b := by
  rcases h with h | h | h | h
  · exact Or.inl h
  · simp only [persistResume] at h
    split at h
    · rwa [← Option.some.inj h]
    · exact Or.inr (Or.inl h)
  · exact Or.inr (Or.inr (Or.inl h))
  · exact Or.inr (Or.inr (Or.inr h))

/-- A payload marks its piece in the session bitfield; nothing else is new. -/
theorem stepPiece_holds {k : Nat} {t : PieceTask} (h : stepPiece s k t = some s')
    (hb : s'.Holds b) :
    s.Holds b ∨ (t.pc = .start ∧ addPiece s.bitfield t.index = some (true, b)) := by
  rcases stepPiece_cases h with ⟨hpc, bf, hadd, rfl⟩ | ⟨_, rfl⟩ | ⟨_, rfl⟩ | ⟨_, u, hu, rfl⟩
  · rcases hb with rfl | hb
    · exact Or.inr ⟨hpc, hadd⟩
    · exact Or.inl (Or.inr hb)
  · exact Or.inl hb
  · exact Or.inl hb
  · have hb' : u.Holds b := hb
    rcases sendDownloadedPiece_cases hu with ⟨gen, w, hw, rfl⟩ | ⟨_, rfl⟩
    · rcases holds_setWorker hb' with h | h
      · exact Or.inl h
      · exact Or.inl (Or.inr (Or.inr (Or.inl ⟨w, List.mem_of_getElem? hw, h⟩)))
    · exact Or.inl hb'

/-- A write task changes no held bitfield. -/
theorem stepWrite_holds {k : Nat} {t : WriteTask} {ok : Bool}
    (h : stepWrite torrent s k t ok = some s') (hb : s'.Holds b) : s.Holds b := by
  rcases stepWrite_cases h with ⟨_, rfl | rfl⟩ | ⟨_, _, rfl⟩ | ⟨_, _, rfl⟩ | ⟨_, rfl⟩ |
    ⟨_, _, rfl⟩ | ⟨_, rfl⟩
  · exact hb
  · exact hb
  · exact hb
  · exact hb
  · exact hb
  · have hb' : (s.sendDone t.gen).Holds b := hb
    exact holds_modify (fun w => { w with doneSent := true }) (fun _ => rfl) hb'
  · exact hb

/-- A transition only passes on what the session already holds. -/
theorem stepTransition_holds {k : Nat} {t : TransitionTask} {ok : Bool}
    (ht : s.transitions[k]? = some t) (h : stepTransition s k t ok = some s')
    (hb : s'.Holds b) : s.Holds b := by
  have hopen : s' = openResources s k t ok → s.Holds b := by
    rintro rfl
    unfold openResources at hb
    split at hb
    · rcases holds_setTransition hb with h | h
      · exact h
      · exact Or.inr (Or.inl (by simpa [TransitionPc.snapshots] using h))
    · exact (holds_setTransition hb).resolve_right (by simp [TransitionPc.snapshots])
  cases hpc : t.pc with
  | requested =>
    simp only [stepTransition, hpc] at h
    split at h <;> rw [← Option.some.inj h] at hb <;>
      exact (holds_setTransition hb).resolve_right (by simp [TransitionPc.snapshots])
  | checked =>
    simp only [stepTransition, hpc, Option.some.injEq] at h
    subst h
    exact holds_cancelInner
      ((holds_setTransition hb).resolve_right (by simp [TransitionPc.snapshots]))
  | innerCancelled =>
    simp only [stepTransition, hpc] at h
    split at h
    · exact hopen (Option.some.inj h).symm
    · split at h <;> rw [← Option.some.inj h] at hb <;>
        exact (holds_setTransition hb).resolve_right (by simp [TransitionPc.snapshots])
    · split at h <;> rw [← Option.some.inj h] at hb <;>
        exact (holds_setTransition hb).resolve_right (by simp [TransitionPc.snapshots])
    · split at h <;> rw [← Option.some.inj h] at hb <;>
        exact (holds_setTransition hb).resolve_right (by simp [TransitionPc.snapshots])
  | opening =>
    simp only [stepTransition, hpc] at h
    exact hopen (Option.some.inj h).symm
  | opened resume =>
    cases resume with
    | some c =>
      simp only [stepTransition, hpc, Option.some.injEq] at h
      subst h
      have hc : s.Holds c :=
        Or.inr (Or.inr (Or.inr ⟨t, List.mem_of_getElem? ht, by simp [hpc, TransitionPc.snapshots]⟩))
      rcases (holds_setTransition hb).resolve_right (by simp [TransitionPc.snapshots]) with rfl | hb
      · exact hc
      · exact Or.inr hb
    | none =>
      simp only [stepTransition, hpc, Option.some.injEq] at h
      subst h
      exact (holds_setTransition hb).resolve_right (by simp [TransitionPc.snapshots])
  | loaded =>
    simp only [stepTransition, hpc, Option.some.injEq] at h
    subst h
    have hs := (holds_setTransition hb).resolve_right (by simp [TransitionPc.snapshots])
    apply holds_swapState (t := .downloading s.workers.length true)
    rcases hs with h | h | ⟨w, hw, hb⟩ | h
    · exact Or.inl h
    · exact Or.inr (Or.inl h)
    · rcases List.mem_append.mp hw with hw | hw
      · exact Or.inr (Or.inr (Or.inl ⟨w, hw, hb⟩))
      · rw [List.mem_singleton] at hw
        subst hw
        exact absurd hb (by simp [Worker.new, WorkerPc.snapshots])
    · exact Or.inr (Or.inr (Or.inr h))
  | swapping next =>
    simp only [stepTransition, hpc, Option.some.injEq] at h
    subst h
    exact holds_swapState
      ((holds_setTransition hb).resolve_right (by simp [TransitionPc.snapshots]))
  | finished =>
    simp only [stepTransition, hpc] at h
    exact absurd h (by simp)

/-- A worker only passes on what the session already holds. -/
theorem stepWorker_holds {gen : Nat} {w : Worker} {act : WorkerAct}
    (hw : s.workers[gen]? = some w) (h : stepWorker s gen w act = some s')
    (hb : s'.Holds b) : s.Holds b := by
  have hheld : ∀ c, c ∈ w.pc.snapshots → s.Holds c := fun c hc =>
    Or.inr (Or.inr (Or.inl ⟨w, List.mem_of_getElem? hw, hc⟩))
  unfold stepWorker at h
  split at h
  · split at h <;> rw [← Option.some.inj h] at hb <;>
      exact (holds_setWorker hb).resolve_right (by simp [WorkerPc.snapshots])
  · rw [← Option.some.inj h] at hb
    rcases holds_setWorker hb with h | h
    · exact h
    · exact Or.inl (by simpa [WorkerPc.snapshots] using h)
  · rename_i c ok hpc
    rw [← Option.some.inj h] at hb
    exact holds_persistResume (hheld c (by simp [hpc, WorkerPc.snapshots]))
      ((holds_setWorker hb).resolve_right (by simp [WorkerPc.snapshots]))
  · rename_i hpc
    split at h
    · exact absurd h (by simp)
    · rename_i index data queue hq
      rw [← Option.some.inj h] at hb
      have hb' : (s.setWorker gen { w with queue := queue }).Holds b := hb
      exact (holds_setWorker hb').resolve_right (by simp [hpc, WorkerPc.snapshots])
  · split at h
    · rw [← Option.some.inj h] at hb
      exact (holds_setWorker hb).resolve_right (by simp [WorkerPc.snapshots])
    · exact absurd h (by simp)
  · rw [← Option.some.inj h] at hb
    rcases holds_setWorker hb with h | h
    · exact h
    · exact Or.inl (by simpa [WorkerPc.snapshots] using h)
  · rename_i reason c ok hpc
    rw [← Option.some.inj h] at hb
    exact holds_persistResume (hheld c (by simp [hpc, WorkerPc.snapshots]))
      ((holds_setWorker hb).resolve_right (by simp [WorkerPc.snapshots]))
  · rw [← Option.some.inj h] at hb
    exact (holds_setWorker hb).resolve_right (by simp [WorkerPc.snapshots])
  · split at h <;> rw [← Option.some.inj h] at hb <;>
      exact (holds_setWorker hb).resolve_right (by simp [WorkerPc.snapshots])
  · exact absurd h (by simp)

/-- A step marks a piece with a given new bitfield. -/
def Marks (s : State) (a : Label) (index : Nat) (b : BitField) : Prop :=
  ∃ k t, a = .piece k ∧ s.pieces[k]? = some t ∧ t.pc = .start ∧ t.index.toNat = index ∧
    addPiece s.bitfield t.index = some (true, b)

/-- Every bitfield held after a step was held before, or the step marked a piece in it. -/
theorem step_holds {a : Label} (h : step torrent s a = some s') (hb : s'.Holds b) :
    s.Holds b ∨ ∃ index, Marks s a index b := by
  cases step_cases h with
  | receive => exact Or.inl hb
  | request =>
    rcases hb with h | h | h | ⟨t, ht, hb⟩
    · exact Or.inl (Or.inl h)
    · exact Or.inl (Or.inr (Or.inl h))
    · exact Or.inl (Or.inr (Or.inr (Or.inl h)))
    · rcases List.mem_append.mp ht with ht | ht
      · exact Or.inl (Or.inr (Or.inr (Or.inr ⟨t, ht, hb⟩)))
      · rw [List.mem_singleton] at ht
        subst ht
        exact absurd hb (by simp [TransitionPc.snapshots])
  | @piece k t _ ht hmove =>
    rcases stepPiece_holds hmove hb with hold | ⟨hpc, hadd⟩
    · exact Or.inl hold
    · exact Or.inr ⟨_, k, t, rfl, ht, hpc, rfl, hadd⟩
  | write _ hmove => exact Or.inl (stepWrite_holds hmove hb)
  | transition ht hmove => exact Or.inl (stepTransition_holds ht hmove hb)
  | worker hw hmove => exact Or.inl (stepWorker_holds hw hmove hb)

/-- No step changes the sizes of the bitfields. -/
theorem step_pieceCount {a : Label} (h : step torrent s a = some s') (hb : s'.Holds b) :
    ∃ c, s.Holds c ∧ b.pieceCount = c.pieceCount := by
  rcases step_holds h hb with hold | ⟨index, _, t, _, _, _, _, hadd⟩
  · exact ⟨b, hold, rfl⟩
  · exact ⟨s.bitfield, Or.inl rfl, BitField.set_pieceCount (addPiece_eq_true hadd).2⟩

/-! ## Durable pieces -/

/-- The log of successful writes only grows. -/
theorem step_written {a : Label} (h : step torrent s a = some s') :
    ∃ more, s'.written = s.written ++ more := by
  have hsame : s'.written = s.written → ∃ more, s'.written = s.written ++ more := fun he =>
    ⟨[], by rw [he, List.append_nil]⟩
  cases step_cases h with
  | receive => exact hsame rfl
  | request => exact hsame rfl
  | piece _ hmove =>
    rcases stepPiece_cases hmove with ⟨_, bf, _, rfl⟩ | ⟨_, rfl⟩ | ⟨_, rfl⟩ | ⟨_, u, hu, rfl⟩
    · exact hsame rfl
    · exact hsame rfl
    · exact hsame rfl
    · rcases sendDownloadedPiece_cases hu with ⟨_, _, _, rfl⟩ | ⟨_, rfl⟩
      · exact hsame rfl
      · exact hsame rfl
  | write _ hmove =>
    rcases stepWrite_cases hmove with ⟨_, rfl | rfl⟩ | ⟨_, _, rfl⟩ | ⟨_, _, rfl⟩ | ⟨_, rfl⟩ |
      ⟨_, _, rfl⟩ | ⟨_, rfl⟩
    · exact hsame rfl
    · exact hsame rfl
    · exact hsame rfl
    · exact ⟨_, rfl⟩
    · exact hsame rfl
    · exact hsame rfl
    · exact hsame rfl
  | transition _ hmove => exact hsame (stepTransition_sameWork hmove).written
  | worker hw hmove =>
    rcases stepWorker_cases hw hmove with ⟨_, _, _, _, rfl⟩ | hwork
    · exact hsame rfl
    · exact hsame hwork.written

/-- A durable piece stays durable. -/
theorem Durable.step {resume : Option BitField} {a : Label} {i : Nat}
    (hd : Durable torrent resume s i) (h : step torrent s a = some s') :
    Durable torrent resume s' i := by
  obtain ⟨more, hmore⟩ := step_written h
  rcases hd with hd | ⟨e, he, hi, hv⟩
  · exact Or.inl hd
  · exact Or.inr ⟨e, by rw [hmore]; exact List.mem_append_left _ he, hi, hv⟩

/-- Every held bitfield marks durable pieces only. -/
def Sound (torrent : Metadata) (resume : Option BitField) (s : State) : Prop :=
  ∀ b, s.Holds b → ∀ i, b.haveBit i = some true → Durable torrent resume s i

/-- The step that marks a piece changes the session bitfield and no log. -/
theorem Marks.step {a : Label} {i : Nat} (hm : Marks s a i b)
    (h : step torrent s a = some s') : s'.bitfield = b ∧ s'.written = s.written := by
  obtain ⟨k, t, rfl, ht, hpc, _, hadd⟩ := hm
  simp only [Download.step, ht, Option.bind_some, stepPiece, hpc, hadd, Option.some.injEq] at h
  rw [← h]
  exact ⟨rfl, rfl⟩

/-- A new session is sound. -/
theorem sound_new (torrent : Metadata) (resume : Option BitField) :
    Sound torrent resume (.new torrent resume) := by
  rintro b (rfl | hb | ⟨w, hw, _⟩ | ⟨t, ht, _⟩) i hi
  · exact absurd hi (BitField.haveBit_empty _ _)
  · exact Or.inl ⟨b, hb, hi⟩
  · exact absurd hw List.not_mem_nil
  · exact absurd ht List.not_mem_nil

end Bqti.Session.Download
